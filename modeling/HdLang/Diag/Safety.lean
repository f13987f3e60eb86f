import HdLang.Diag.Rollback
import HdLang.Lib.Transition

/-!
# Rollback and ownership

`truncate` restores the buffer of a mark when no call since attached to a row that was there at the
mark. In a run of calls, marks and truncations whose attached parts go to the row pushed last, each
range stays inside its column, and no label or fix-it has two rows.
-/

namespace HdLang.Diag

open List Option Nat Range32

variable {P : Parts}

/-! ### Tilings -/

/-- The ranges lie end to end, from `a` to `z`. -/
def Tiles : ℕ → List Range32 → ℕ → Prop
  | a, [], z => a = z
  | a, r :: rs, z => r.start = a ∧ Tiles r.stop rs z

variable {init : List Range32}

namespace Tiles

variable {a z n : ℕ} {rs : List Range32} {r : Range32}

theorem append {m : ℕ} {qs : List Range32} (h : Tiles a rs m) (h' : Tiles m qs z) :
    Tiles a (rs ++ qs) z := by
  induction rs generalizing a with
  | nil =>
    obtain rfl : a = m := h
    exact h'
  | cons r rs ih => exact ⟨h.1, ih h.2⟩

theorem snoc (h : Tiles a rs z) (len : ℕ) : Tiles a (rs ++ [⟨z, len⟩]) (z + len) :=
  h.append ⟨rfl, rfl⟩

theorem le (h : Tiles a rs z) : a ≤ z := by
  induction rs generalizing a with
  | nil => exact le_of_eq h
  | cons r rs ih =>
    have hrest := ih h.2
    have hstart := h.1
    unfold stop at hrest
    omega

theorem of_snoc (h : Tiles a (init ++ [r]) z) :
    Tiles a init r.start ∧ r.stop = z := by
  induction init generalizing a with
  | nil => exact ⟨h.1.symm, h.2⟩
  | cons q init ih =>
    obtain ⟨hinit, hstop⟩ := ih h.2
    exact ⟨⟨h.1, hinit⟩, hstop⟩

theorem lengthen (h : Tiles a (init ++ [r]) z) :
    Tiles a (init ++ [⟨r.start, r.len + 1⟩]) (z + 1) := by
  obtain ⟨hinit, rfl⟩ := h.of_snoc
  exact hinit.append ⟨rfl, by simp [stop, Tiles, Nat.add_assoc]⟩

theorem stop_le (h : Tiles a rs z) (hr : r ∈ rs) : a ≤ r.start ∧ r.stop ≤ z := by
  induction rs generalizing a with
  | nil => cases hr
  | cons q rs ih =>
    obtain rfl | hr := mem_cons.mp hr
    · exact ⟨le_of_eq h.1.symm, le h.2⟩
    · obtain ⟨hstart, hstop⟩ := ih h.2 hr
      have hq := h.1
      unfold stop at hstart hstop ⊢
      exact ⟨by omega, hstop⟩

end Tiles

/-- Row `i` has part `j` of a pool. -/
def Owns (ranges : List Range32) (i j : ℕ) : Prop :=
  ∃ r, ranges[i]? = some r ∧ r.start ≤ j ∧ j < r.stop

variable {i : ℕ}

theorem Tiles.owner_unique {a z i' j : ℕ} {rs : List Range32} (h : Tiles a rs z) (hi : Owns rs i j)
    (hi' : Owns rs i' j) : i = i' := by
  induction rs generalizing a i i' with
  | nil =>
    obtain ⟨r, hr, -⟩ := hi
    cases hr
  | cons q rs ih =>
    obtain ⟨r, hr, hstart, hstop⟩ := hi
    obtain ⟨r', hr', hstart', hstop'⟩ := hi'
    cases i with
    | zero =>
      obtain rfl := some.inj hr
      cases i' with
      | zero => rfl
      | succ i' =>
        have := (h.2.stop_le (mem_of_getElem? hr')).1
        omega
    | succ i =>
      cases i' with
      | zero =>
        obtain rfl := some.inj hr'
        have := (h.2.stop_le (mem_of_getElem? hr)).1
        omega
      | succ i' => exact congrArg succ (ih h.2 ⟨r, hr, hstart, hstop⟩ ⟨r', hr', hstart', hstop'⟩)

/-- What lengthening the last range adds belongs to the last row. -/
theorem owns_lengthen {r : Range32} {a z j : ℕ} (h : Tiles a (init ++ [r]) z)
    (hi : Owns (init ++ [⟨r.start, r.len + 1⟩]) i j) :
    (j < z ∧ Owns (init ++ [r]) i j) ∨ (j = z ∧ i = init.length) := by
  obtain ⟨hinit, hstop⟩ := h.of_snoc
  obtain ⟨q, hq, hlow, hhigh⟩ := hi
  rcases lt_trichotomy i init.length with hlt | rfl | hgt
  · rw [getElem?_append_left hlt] at hq
    have hin := hinit.stop_le (mem_of_getElem? hq)
    refine .inl ⟨?_, q, by rw [getElem?_append_left hlt, hq], hlow, hhigh⟩
    unfold stop at *
    omega
  · rw [getElem?_concat_length] at hq
    obtain rfl := some.inj hq
    by_cases hj : j = z
    · exact .inr ⟨hj, rfl⟩
    · have hlt : j < r.stop := by
        unfold stop at *
        simp only at hhigh
        omega
      exact .inl ⟨hstop ▸ hlt, r, getElem?_concat_length, hlow, hlt⟩
  · rw [getElem?_eq_none (by simp; omega)] at hq
    cases hq

namespace DiagBuf

/-! ### When a truncation restores the buffer -/

/-- A call that attaches to the row pushed last. -/
def Call.Attaches : Call P → Prop
  | .addFix .. | .addLabel .. => True
  | _ => False

/-- No call attaches while the last row is one of the first `n`. -/
def Fresh (n : ℕ) : DiagBuf P → List (Call P) → Prop
  | _, [] => True
  | b, c :: cs => (c.Attaches → b.code = [] ∨ n < b.code.length) ∧
      ∀ b', b.call c = some b' → Fresh n b' cs

theorem mark_eq_some {b : DiagBuf P} {m : DiagMark} (h : b.mark = some m) : m = b.lengths := by
  unfold mark at h
  simp only [bind_eq_bind, bind_eq_some_iff] at h
  obtain ⟨rows, h₁, labelSpan, h₂, fixTitle, h₃, edits, h₄, text, h₅, h⟩ := h
  rw [toU32_eq_some h₁, toU32_eq_some h₂, toU32_eq_some h₃, toU32_eq_some h₄, toU32_eq_some h₅] at h
  exact (some.inj h).symm

theorem take_of_prefix {α : Type} {xs ys : List α} {n : ℕ} (h : xs <+: ys) (hn : n = xs.length) :
    ys.take n = xs := by
  rw [hn]
  exact (prefix_iff_eq_take.mp h).symm

variable {b later : DiagBuf P}

theorem truncate_eq (hb : b.Aligned) (h : Grown b later) (hlabels : b.labels <+: later.labels)
    (hfixes : b.fixes <+: later.fixes) :
    later.truncate b.lengths = b := by
  ext1
  · exact take_of_prefix h.code rfl
  · exact take_of_prefix h.severity hb.severity.symm
  · exact take_of_prefix h.primary hb.primary.symm
  · exact take_of_prefix h.message hb.message.symm
  · exact take_of_prefix hlabels hb.labels.symm
  · exact take_of_prefix hfixes hb.fixes.symm
  · exact take_of_prefix h.root hb.root.symm
  · exact take_of_prefix h.labelSpan rfl
  · exact take_of_prefix h.labelMsg hb.labelMsg.symm
  · exact take_of_prefix h.fixTitle rfl
  · exact take_of_prefix h.fixSafety hb.fixSafety.symm
  · exact take_of_prefix h.fixEdits hb.fixEdits.symm
  · exact take_of_prefix h.edits rfl
  · exact take_of_prefix h.text rfl

theorem prefix_of_truncate_eq (h : later.truncate b.lengths = b) :
    b.labels <+: later.labels ∧ b.fixes <+: later.fixes := by
  constructor
  · exact (congrArg labels h).symm ▸ take_prefix _ _
  · exact (congrArg fixes h).symm ▸ take_prefix _ _

/-- A row's range, once it is longer, stays longer. -/
theorem not_prefix_of_lengthen {rs later : List Range32} {row : Range32}
    (h : Lengthened rs (init ++ [row])) (hn : rs.length = init.length + 1)
    (h' : Lengthened (init ++ [⟨row.start, row.len + 1⟩]) later) : ¬rs <+: later := by
  intro hprefix
  have hlt : init.length < rs.length := by omega
  obtain ⟨r, hr⟩ : ∃ r, rs[init.length]? = some r := ⟨_, getElem?_eq_getElem hlt⟩
  obtain ⟨r', hr', -, hle⟩ := h.last _ r hn.symm hr
  rw [getElem?_concat_length] at hr'
  obtain rfl := some.inj hr'
  obtain ⟨r', hr', -, hle'⟩ := h'.last init.length _ (by simp) getElem?_concat_length
  obtain ⟨tail, rfl⟩ := hprefix
  rw [getElem?_append_left hlt, hr] at hr'
  obtain rfl := some.inj hr'
  simp only at hle'
  omega

/-- What a call keeps that attaches to no row of `b`. -/
structure Beyond (b later : DiagBuf P) : Prop where
  aligned : later.Aligned
  labels : b.labels <+: later.labels
  fixes : b.fixes <+: later.fixes

variable {b' : DiagBuf P}

theorem Beyond.withRow (h : Beyond b later) {d : Row P} {pushed : Bool}
    (hpush : later.push d = some (b', pushed)) : Beyond b b' := by
  have haligned : b'.Aligned := h.aligned.call (by simp [call, hpush] : later.call (.push d) = some
    b')
  obtain ⟨-, rfl, -⟩ | ⟨-, rfl⟩ := push_eq_some hpush
  · exact h
  · exact ⟨haligned, h.labels.trans (prefix_append _ _), h.fixes.trans (prefix_append _ _)⟩

theorem prefix_snoc {rs : List Range32} {row row' : Range32} (h : rs <+: init ++ [row])
    (hlt : rs.length < init.length + 1) : rs <+: init ++ [row'] := by
  obtain heq | h := prefix_concat_iff.mp h
  · rw [heq] at hlt
    simp at hlt
  · exact h.trans (prefix_append _ _)

theorem Beyond.addLabel {b later b' : DiagBuf P} (h : Beyond b later) (hb : b.Aligned)
    (hfresh : later.code = [] ∨ b.code.length < later.code.length) {span : P.Span} {message : Bytes}
    (hadd : later.addLabel span message = some b') : Beyond b b' := by
  have haligned : b'.Aligned := Aligned.call h.aligned
    (show later.call (.addLabel span message) = some b' from hadd)
  obtain ⟨-, rfl⟩ | ⟨init, row, hinit, rfl⟩ := addLabel_eq_some hadd
  · exact h
  · refine ⟨haligned, ?_, h.fixes⟩
    have hrows := h.aligned.labels
    rw [hinit, length_append, length_singleton] at hrows
    have hlt : b.code.length < later.code.length := by
      obtain hnil | hlt := hfresh
      · rw [hnil] at hrows
        cases hrows
      · exact hlt
    exact prefix_snoc (hinit ▸ h.labels) (by rw [hb.labels]; omega)

theorem Beyond.addFix {b later b' : DiagBuf P} (h : Beyond b later) (hb : b.Aligned)
    (hfresh : later.code = [] ∨ b.code.length < later.code.length) {title : Bytes}
    {safety : FixSafety} {edits : List (P.Span × Bytes)}
    (hadd : later.addFix title safety edits = some b') : Beyond b b' := by
  have haligned : b'.Aligned := Aligned.call h.aligned
    (show later.call (.addFix title safety edits) = some b' from hadd)
  obtain ⟨-, rfl⟩ | ⟨init, row, added, more, hinit, rfl, -⟩ := addFix_eq_some hadd
  · exact h
  · refine ⟨haligned, h.labels, ?_⟩
    have hrows := h.aligned.fixes
    rw [hinit, length_append, length_singleton] at hrows
    have hlt : b.code.length < later.code.length := by
      obtain hnil | hlt := hfresh
      · rw [hnil] at hrows
        cases hrows
      · exact hlt
    exact prefix_snoc (hinit ▸ h.fixes) (by rw [hb.fixes]; omega)

theorem Beyond.code_le (h : Beyond b later) (hb : b.Aligned) :
    b.code.length ≤ later.code.length := by
  have hle := h.labels.length_le
  rwa [hb.labels, h.aligned.labels] at hle

theorem Beyond.appendIf {b later b' other : DiagBuf P} (h : Beyond b later) (hb : b.Aligned)
    {keep : P.Code → Bool} (happend : later.appendIf other keep = some b') : Beyond b b' := by
  refine appendIf_keeps (Beyond b) (fun c => Beyond b c ∧ b.code.length < c.code.length) ?_ ?_ ?_
    And.left h happend
  · intro c d c' hc hpush
    have hle := hc.code_le hb
    refine ⟨hc.withRow hpush, ?_⟩
    obtain ⟨hfalse, -⟩ | ⟨-, rfl⟩ := push_eq_some hpush
    · cases hfalse
    · show b.code.length < (c.code ++ [d.code]).length
      rw [length_append, length_singleton]
      exact lt_succ_of_le hle
  · intro c span message c' hc hadd
    exact ⟨hc.1.addLabel hb (.inr hc.2) hadd, hc.2.trans_le (grown_addLabel hadd).code.length_le⟩
  · intro c title safety edits c' hc hadd
    exact ⟨hc.1.addFix hb (.inr hc.2) hadd, hc.2.trans_le (grown_addFix hadd).code.length_le⟩

theorem Beyond.call {b later b' : DiagBuf P} (h : Beyond b later) (hb : b.Aligned) {c : Call P}
    (hfresh : c.Attaches → later.code = [] ∨ b.code.length < later.code.length)
    (hc : later.call c = some b') : Beyond b b' := by
  cases c with
  | push d =>
    obtain ⟨⟨c', pushed⟩, hpush, rfl⟩ := map_eq_some_iff.mp hc
    exact h.withRow hpush
  | addFix title safety edits => exact h.addFix hb (hfresh trivial) hc
  | addLabel span message => exact h.addLabel hb (hfresh trivial) hc
  | append other => exact h.appendIf hb hc
  | appendIf other keep => exact h.appendIf hb hc

variable {cs : List (Call P)}

theorem Beyond.calls (h : Beyond b later) (hb : b.Aligned) (hfresh : Fresh b.code.length later cs)
    (hcs : later.calls cs = some b') :
    Beyond b b' := by
  induction cs generalizing later with
  | nil => exact some.inj hcs ▸ h
  | cons c cs ih =>
    obtain ⟨b₁, hc, hcs⟩ := bind_eq_some_iff.mp hcs
    exact ih (h.call hb hfresh.1 hc) (hfresh.2 b₁ hc) hcs

/-- A call that attaches to one of the first rows makes its range longer for good. -/
theorem fresh_of_prefix (hb : b.Aligned) (hlater : later.Aligned) (h : Grown b later)
    (hcs : later.calls cs = some b') (hlabels : b.labels <+: b'.labels)
    (hfixes : b.fixes <+: b'.fixes) :
    Fresh b.code.length later cs := by
  induction cs generalizing later with
  | nil => trivial
  | cons c cs ih =>
    obtain ⟨b₁, hc, hcs⟩ := bind_eq_some_iff.mp hcs
    refine ⟨fun hattaches => ?_, fun b₂ hc' => ?_⟩
    · by_contra hstale
      rw [not_or, not_lt] at hstale
      obtain ⟨hne, hle⟩ := hstale
      have hrows : b.code.length = later.code.length := le_antisymm h.code.length_le hle
      have hlater' := grown_calls hcs
      cases c with
      | addLabel span message =>
        obtain ⟨hnil, -⟩ | ⟨init, row, hinit, rfl⟩ := addLabel_eq_some hc
        · have hlength := hlater.labels
          rw [hnil] at hlength
          exact hne (eq_nil_of_length_eq_zero hlength.symm)
        · have hlength := congrArg length hinit
          rw [hlater.labels, ← hrows, ← hb.labels] at hlength
          exact not_prefix_of_lengthen (hinit ▸ h.labels) (by simpa using hlength) hlater'.labels
            hlabels
      | addFix title safety edits =>
        obtain ⟨hnil, -⟩ | ⟨init, row, added, more, hinit, rfl, -⟩ := addFix_eq_some hc
        · have hlength := hlater.fixes
          rw [hnil] at hlength
          exact hne (eq_nil_of_length_eq_zero hlength.symm)
        · have hlength := congrArg length hinit
          rw [hlater.fixes, ← hrows, ← hb.fixes] at hlength
          exact not_prefix_of_lengthen (hinit ▸ h.fixes) (by simpa using hlength) hlater'.fixes
            hfixes
      | push d => exact hattaches
      | append other => exact hattaches
      | appendIf other keep => exact hattaches
    · obtain rfl : b₁ = b₂ := some.inj (hc.symm.trans hc')
      exact ih (hlater.call hc) (h.trans (grown_call hc)) hcs

/-- **Truncating restores the buffer of a mark** exactly when no call since attached to a row that
was there. -/
theorem truncate_eq_iff (hb : b.Aligned) {m : DiagMark} (hm : b.mark = some m)
    (hcs : b.calls cs = some b') :
    b'.truncate m = b ↔ Fresh b.code.length b cs := by
  rw [mark_eq_some hm]
  constructor
  · intro h
    obtain ⟨hlabels, hfixes⟩ := prefix_of_truncate_eq h
    exact fresh_of_prefix hb hb (Grown.refl b) hcs hlabels hfixes
  · intro hfresh
    have h := Beyond.calls ⟨hb, prefix_rfl, prefix_rfl⟩ hb hfresh hcs
    exact truncate_eq hb (grown_calls hcs) h.labels h.fixes

/-! ### The ranges of a buffer -/

/-- The ranges of a buffer lie end to end in their columns, and every text lies in `text`. -/
structure WellFormed (b : DiagBuf P) : Prop extends b.Aligned where
  labels_tile : Tiles 0 b.labels b.labelSpan.length
  fixes_tile : Tiles 0 b.fixes b.fixTitle.length
  edits_tile : Tiles 0 b.fixEdits b.edits.length
  text_inside : ∀ r ∈ b.message ++ b.labelMsg ++ b.fixTitle ++ b.edits.map FixEdit.text,
    r.stop ≤ b.text.length

theorem wellFormed_empty : (empty P).WellFormed where
  toAligned := aligned_empty
  labels_tile := rfl
  fixes_tile := rfl
  edits_tile := rfl
  text_inside _ h := by simp [empty] at h

theorem WellFormed.push {b b' : DiagBuf P} {d : Row P} (h : b.WellFormed)
    (hpush : b.push d = some (b', true)) : b'.WellFormed := by
  have haligned : b'.Aligned := Aligned.call h.toAligned
    (show b.call (.push d) = some b' by simp [call, hpush])
  obtain ⟨hfalse, -⟩ | ⟨-, rfl⟩ := push_eq_some hpush
  · cases hfalse
  · refine ⟨haligned, h.labels_tile.snoc 0, h.fixes_tile.snoc 0, h.edits_tile, ?_⟩
    intro r hr
    have hbefore := h.text_inside r
    simp only [withRow, mem_append, mem_singleton, length_append] at hr hbefore ⊢
    obtain ((((hr | rfl) | hr) | hr) | hr) := hr
    · exact (hbefore (.inl (.inl (.inl hr)))).trans (le_add_right _ _)
    · exact le_rfl
    · exact (hbefore (.inl (.inl (.inr hr)))).trans (le_add_right _ _)
    · exact (hbefore (.inl (.inr hr))).trans (le_add_right _ _)
    · exact (hbefore (.inr hr)).trans (le_add_right _ _)

theorem WellFormed.addLabel {b b' : DiagBuf P} {span : P.Span} {message : Bytes} (h : b.WellFormed)
    (hadd : b.addLabel span message = some b') : b'.WellFormed := by
  have haligned : b'.Aligned := Aligned.call h.toAligned
    (show b.call (.addLabel span message) = some b' from hadd)
  obtain ⟨-, rfl⟩ | ⟨init, row, hinit, rfl⟩ := addLabel_eq_some hadd
  · exact h
  · refine ⟨haligned, ?_, h.fixes_tile, h.edits_tile, ?_⟩
    · rw [length_append]
      exact (hinit ▸ h.labels_tile).lengthen
    intro r hr
    have hbefore := h.text_inside r
    simp only [mem_append, mem_singleton, length_append] at hr hbefore ⊢
    obtain (((hr | hr | rfl) | hr) | hr) := hr
    · exact (hbefore (.inl (.inl (.inl hr)))).trans (le_add_right _ _)
    · exact (hbefore (.inl (.inl (.inr hr)))).trans (le_add_right _ _)
    · exact le_rfl
    · exact (hbefore (.inl (.inr hr))).trans (le_add_right _ _)
    · exact (hbefore (.inr hr)).trans (le_add_right _ _)

theorem WellFormed.addFix {b b' : DiagBuf P} {title : Bytes} {safety : FixSafety}
    {edits : List (P.Span × Bytes)} (h : b.WellFormed)
    (hadd : b.addFix title safety edits = some b') : b'.WellFormed := by
  have haligned : b'.Aligned := Aligned.call h.toAligned
    (show b.call (.addFix title safety edits) = some b' from hadd)
  obtain ⟨-, rfl⟩ | ⟨init, row, added, more, hinit, rfl, hlength, hadded⟩ := addFix_eq_some hadd
  · exact h
  · refine ⟨haligned, h.labels_tile, ?_, ?_, ?_⟩
    · rw [length_append]
      exact (hinit ▸ h.fixes_tile).lengthen
    · rw [length_append, hlength]
      exact h.edits_tile.snoc _
    intro r hr
    have hbefore := h.text_inside r
    simp only [mem_append, mem_singleton, length_append, map_append,
      List.mem_map] at hr hbefore hadded ⊢
    obtain (((hr | hr) | hr | rfl) | hr | ⟨e, he, rfl⟩) := hr
    · exact (hbefore (.inl (.inl (.inl hr)))).trans (Nat.le_add_right _ _)
    · exact (hbefore (.inl (.inl (.inr hr)))).trans (Nat.le_add_right _ _)
    · exact (hbefore (.inl (.inr hr))).trans (Nat.le_add_right _ _)
    · exact Nat.add_le_add_left (Nat.le_add_right _ _) _
    · exact (hbefore (.inr hr)).trans (Nat.le_add_right _ _)
    · exact hadded e he

theorem WellFormed.call {b b' : DiagBuf P} {c : Call P} (h : b.WellFormed) (hc : b.call c = some b')
    : b'.WellFormed :=
  call_keeps WellFormed WellFormed.push WellFormed.addLabel WellFormed.addFix h hc

/-- The ranges of every row lie inside their columns, and no label or fix-it has two rows. -/
structure Sound (b : DiagBuf P) : Prop where
  labels_inside : ∀ r ∈ b.labels, r.stop ≤ b.labelSpan.length ∧ r.stop ≤ b.labelMsg.length
  fixes_inside : ∀ r ∈ b.fixes, r.stop ≤ b.fixTitle.length ∧ r.stop ≤ b.fixSafety.length ∧
    r.stop ≤ b.fixEdits.length
  edits_inside : ∀ r ∈ b.fixEdits, r.stop ≤ b.edits.length
  text_inside : ∀ r ∈ b.message ++ b.labelMsg ++ b.fixTitle ++ b.edits.map FixEdit.text,
    r.stop ≤ b.text.length
  label_once : ∀ i i' j, Owns b.labels i j → Owns b.labels i' j → i = i'
  fix_once : ∀ i i' j, Owns b.fixes i j → Owns b.fixes i' j → i = i'

theorem WellFormed.sound (h : b.WellFormed) : b.Sound where
  labels_inside r hr := by
    have hstop := (h.labels_tile.stop_le hr).2
    exact ⟨hstop, h.labelMsg ▸ hstop⟩
  fixes_inside r hr := by
    have hstop := (h.fixes_tile.stop_le hr).2
    exact ⟨hstop, h.fixSafety ▸ hstop, h.fixEdits ▸ hstop⟩
  edits_inside r hr := (h.edits_tile.stop_le hr).2
  text_inside := h.text_inside
  label_once _ _ _ := h.labels_tile.owner_unique
  fix_once _ _ _ := h.fixes_tile.owner_unique

/-! ### Runs -/

/-- The row that the last push of an append made, none when that push was dropped. -/
def latestFrom (b other : DiagBuf P) (keep : P.Code → Bool) (latest : Option ℕ) : List ℕ → Option ℕ
  | [] => latest
  | i :: rest =>
    if (other.code[i]?).any keep then
      match b.appendRow other i with
      | some b' =>
        latestFrom b' other keep (if b.code.length < b'.code.length then some b.code.length else
          none)
          rest
      | none => none
    else latestFrom b other keep latest rest

-- What decides `d.root ∈ b.root`.
local instance : LawfulBEq (Option P.RootKey) := inferInstance

/-- The row of the last push after a call. -/
def latestAfter (b : DiagBuf P) (latest : Option ℕ) : Call P → Option ℕ
  | .push d => if d.root.isSome ∧ d.root ∈ b.root then none else some b.code.length
  | .append other => b.latestFrom other (fun _ => true) latest (List.range other.code.length)
  | .appendIf other keep => b.latestFrom other keep latest (List.range other.code.length)
  | .addFix .. | .addLabel .. => latest

/-- A buffer in use: the row that the last push made, when it was not dropped and is still there,
and the buffers of the marks to go back to, the last one first. -/
structure State (P : Parts) where
  buf : DiagBuf P
  latest : Option ℕ
  saved : List (DiagBuf P)

inductive Action (P : Parts) where
  | call (c : Call P)
  | mark
  | truncate (k : ℕ)

/-- A call, a mark, and a truncation to the `k`-th mark from the last. -/
inductive Step : State P → Action P → State P → Prop
  | call {s : State P} {c : Call P} {b : DiagBuf P} (hc : s.buf.call c = some b) :
    Step s (.call c) ⟨b, s.buf.latestAfter s.latest c, s.saved⟩
  | mark {s : State P} {m : DiagMark} (hm : s.buf.mark = some m) :
    Step s .mark ⟨s.buf, s.latest, s.buf :: s.saved⟩
  | truncate {s : State P} {k : ℕ} {b : DiagBuf P} {rest : List (DiagBuf P)} {m : DiagMark}
    (hk : s.saved.drop k = b :: rest) (hm : b.mark = some m) :
    Step s (.truncate k) ⟨s.buf.truncate m, s.latest.filter (· < b.code.length), b :: rest⟩

/-- The last row of a mark has no label or fix-it past the mark. -/
def Untouched (m : DiagMark) (b : DiagBuf P) : Prop :=
  ∀ i, i + 1 = m.rows → (∀ r, b.labels[i]? = some r → r.stop ≤ m.labelSpan) ∧
    ∀ r, b.fixes[i]? = some r → r.stop ≤ m.fixTitle

/-- What is attached goes to the row that the last push made, and a truncation goes back to a mark
whose last row got nothing since. -/
def Allowed (s : State P) : Action P → Prop
  | .call c => c.Attaches → s.buf.code = [] ∨ s.latest.isSome
  | .mark => True
  | .truncate k => ∀ b, s.saved[k]? = some b → Untouched b.lengths s.buf

/-- The state at the start. -/
def State.start (P : Parts) : State P := ⟨empty P, none, []⟩

/-- What a run keeps. -/
structure Inv (s : State P) : Prop where
  wellFormed : s.buf.WellFormed
  latest : ∀ i, s.latest = some i → i + 1 = s.buf.code.length
  saved : ∀ b ∈ s.saved, b.WellFormed ∧ Grown b s.buf
  nested : s.saved.Pairwise fun newer older => Grown older newer

theorem inv_start : Inv (State.start P) where
  wellFormed := wellFormed_empty
  latest _ h := by cases h
  saved _ h := by cases h
  nested := List.Pairwise.nil

variable {c : Call P}

/-- The rows after an attached label or fix-it are those before it. -/
theorem code_length_attach (hattaches : c.Attaches) (h : b.call c = some b')
    : b'.code.length = b.code.length := by
  cases c with
  | addLabel span message =>
    obtain ⟨-, rfl⟩ | ⟨init, row, -, rfl⟩ := addLabel_eq_some h <;> rfl
  | addFix title safety edits =>
    obtain ⟨-, rfl⟩ | ⟨init, row, added, more, -, rfl, -⟩ := addFix_eq_some h <;> rfl
  | push d => exact hattaches.elim
  | append other => exact hattaches.elim
  | appendIf other keep => exact hattaches.elim

theorem code_length_appendRow {other : DiagBuf P} (h : b.appendRow other i = some b') :
    b'.code.length = b.code.length ∨ b'.code.length = b.code.length + 1 := by
  refine appendRow_keeps (· = b) (fun c => c.code.length = b.code.length + 1)
    (fun c => c.code.length = b.code.length ∨ c.code.length = b.code.length + 1)
    ?_ ?_ ?_ .inr ?_ rfl h
  · rintro c d c' rfl hpush
    obtain ⟨hfalse, -⟩ | ⟨-, rfl⟩ := push_eq_some hpush
    · cases hfalse
    · exact length_append
  · intro c span message c' hc hadd
    exact (code_length_attach (c := .addLabel span message) trivial hadd).trans hc
  · intro c title safety edits c' hc hadd
    exact (code_length_attach (c := .addFix title safety edits) trivial hadd).trans hc
  · rintro c rfl
    exact .inl rfl

variable {latest : Option ℕ}

theorem latestFrom_spec {other : DiagBuf P} {keep : P.Code → Bool}
    (hlatest : ∀ i, latest = some i → i + 1 = b.code.length) {is : List ℕ}
    (h : b.appendFrom other keep is = some b') (hi : b.latestFrom other keep latest is = some i)
    : i + 1 = b'.code.length := by
  induction is generalizing b latest with
  | nil =>
    obtain rfl := some.inj h
    exact hlatest i hi
  | cons k is ih =>
    simp only [appendFrom, bind_eq_bind, bind_eq_some_iff] at h
    obtain ⟨code, hcode, b₁, hrow, h⟩ := h
    unfold latestFrom at hi
    rw [hcode, any_some] at hi
    cases hkeep : keep code with
    | false =>
      rw [hkeep, if_neg Bool.false_ne_true] at hi hrow
      obtain rfl := some.inj hrow
      exact ih hlatest h hi
    | true =>
      rw [hkeep, if_pos rfl] at hi hrow
      rw [hrow] at hi
      refine ih ?_ h hi
      intro j hj
      split at hj
      · next hlt =>
        obtain rfl := some.inj hj
        obtain heq | heq := code_length_appendRow hrow
        · omega
        · exact heq.symm
      · cases hj

theorem latestAfter_spec (hlatest : ∀ i, latest = some i → i + 1 = b.code.length)
    (h : b.call c = some b') (hi : b.latestAfter latest c = some i) :
    i + 1 = b'.code.length := by
  cases c with
  | push d =>
    obtain ⟨⟨b₁, pushed⟩, hpush, rfl⟩ := map_eq_some_iff.mp h
    rw [latestAfter] at hi
    split at hi
    · cases hi
    · next hnew =>
      obtain rfl := some.inj hi
      obtain ⟨-, -, hroot⟩ | ⟨-, rfl⟩ := push_eq_some hpush
      · exact absurd hroot hnew
      · show b.code.length + 1 = (b.code ++ [d.code]).length
        rw [length_append, length_singleton]
  | addFix title safety edits =>
    rw [code_length_attach (c := .addFix title safety edits) trivial h]
    exact hlatest i hi
  | addLabel span message =>
    rw [code_length_attach (c := .addLabel span message) trivial h]
    exact hlatest i hi
  | append other => exact latestFrom_spec hlatest h hi
  | appendIf other keep => exact latestFrom_spec hlatest h hi

theorem prefix_of_untouched {rs later : List Range32} {n z : ℕ} (h : Lengthened rs later)
    (htile : Tiles 0 rs z) (hn : rs.length = n)
    (hlast : ∀ i, i + 1 = n → ∀ r, later[i]? = some r → r.stop ≤ z) : rs <+: later := by
  obtain rfl | ⟨init, row, rfl⟩ := rs.eq_nil_or_concat'
  · exact nil_prefix
  · obtain ⟨r, hr, hstart, hlen⟩ := h.last init.length row (by simp) getElem?_concat_length
    have hstop := hlast init.length (by simpa using hn) r hr
    have hz := htile.of_snoc.2
    have heq : r = row := by
      cases r
      cases row
      simp only [Range32.stop, Range32.mk.injEq] at *
      omega
    subst heq
    rw [prefix_iff_getElem?]
    intro i hi
    rw [length_append, length_singleton] at hi
    obtain hlt | rfl := Nat.lt_succ_iff_lt_or_eq.mp hi
    · rw [h.inner i (by simpa using hlt), getElem?_eq_getElem]
    · rw [hr, getElem_concat_length rfl]

/-- **A truncation in a run restores the buffer of its mark.** -/
theorem truncate_saved (hb : b.WellFormed) (h : Grown b later)
    (huntouched : Untouched b.lengths later) : later.truncate b.lengths = b :=
  truncate_eq hb.toAligned h
    (prefix_of_untouched h.labels hb.labels_tile hb.labels fun i hi => (huntouched i hi).1)
    (prefix_of_untouched h.fixes hb.fixes_tile hb.fixes fun i hi => (huntouched i hi).2)

theorem Inv.step {s t : State P} {a : Action P} (h : Inv s) (hallowed : Allowed s a)
    (hstep : Step s a t) : Inv t := by
  cases hstep with
  | call hc =>
    exact ⟨h.wellFormed.call hc, fun i hi => latestAfter_spec h.latest hc hi,
      fun b hb => ⟨(h.saved b hb).1, (h.saved b hb).2.trans (grown_call hc)⟩, h.nested⟩
  | mark hm =>
    refine ⟨h.wellFormed, h.latest, ?_, pairwise_cons.mpr ⟨fun b hb => (h.saved b hb).2, h.nested⟩⟩
    intro b hb
    obtain rfl | hb := mem_cons.mp hb
    · exact ⟨h.wellFormed, Grown.refl _⟩
    · exact h.saved b hb
  | @truncate k b rest m hk hm =>
    obtain rfl := mark_eq_some hm
    have hget : s.saved[k]? = some b := by
      rw [← head?_drop, hk, head?_cons]
    have hsaved := h.saved b (mem_of_getElem? hget)
    have heq := truncate_saved hsaved.1 hsaved.2 (hallowed b hget)
    have hnested : (b :: rest).Pairwise fun newer older => Grown older newer := hk ▸ h.nested.drop
    have hmem : ∀ c ∈ b :: rest, c ∈ s.saved := fun c hc => mem_of_mem_drop (hk ▸ hc)
    refine ⟨?_, ?_, ?_, hnested⟩
    · show (s.buf.truncate b.lengths).WellFormed
      rw [heq]
      exact hsaved.1
    · intro i hi
      obtain ⟨hlatest, hlt⟩ := filter_eq_some_iff.mp hi
      have hrow := h.latest i hlatest
      have hle := hsaved.2.code.length_le
      show i + 1 = (s.buf.truncate b.lengths).code.length
      rw [heq]
      have hlt' : i < b.code.length := by simpa using hlt
      omega
    · intro c hc
      refine ⟨(h.saved c (hmem c hc)).1, ?_⟩
      show Grown c (s.buf.truncate b.lengths)
      rw [heq]
      obtain rfl | hc := mem_cons.mp hc
      · exact Grown.refl _
      · exact (pairwise_cons.mp hnested).1 c hc

theorem Inv.run {s : State P} (h : Transition.Run Step Allowed (State.start P) s) : Inv s :=
  h.invariant inv_start Inv.step

/-- What an attaching call attaches belongs to the row of the last push, and the parts attached
before keep their rows. -/
theorem owns_attach (hb : b.WellFormed) (hlatest : ∀ i, latest = some i → i + 1 = b.code.length)
    (hattaches : c.Attaches) (hallowed : b.code = [] ∨ latest.isSome) (h : b.call c = some b')
    (i j : ℕ) :
    (Owns b'.labels i j → Owns b.labels i j ∨ (b.labelSpan.length ≤ j ∧ latest = some i)) ∧
      (Owns b'.fixes i j → Owns b.fixes i j ∨ (b.fixTitle.length ≤ j ∧ latest = some i)) := by
  have hrow : ∀ {init : List Range32} {row : Range32} {rs : List Range32}, rs = init ++ [row] →
      rs.length = b.code.length → latest = some init.length := by
    intro init row rs hinit hlength
    rw [hinit, length_append, length_singleton] at hlength
    obtain hnil | hsome := hallowed
    · rw [hnil] at hlength
      cases hlength
    · obtain ⟨k, hk⟩ := isSome_iff_exists.mp hsome
      have hk' := hlatest k hk
      rw [hk]
      exact congrArg some (by omega)
  cases c with
  | addLabel span message =>
    obtain ⟨-, rfl⟩ | ⟨init, row, hinit, rfl⟩ := addLabel_eq_some h
    · exact ⟨.inl, .inl⟩
    · refine ⟨fun howns => ?_, .inl⟩
      obtain ⟨-, howns⟩ | ⟨rfl, rfl⟩ := owns_lengthen (hinit ▸ hb.labels_tile) howns
      · exact .inl (hinit ▸ howns)
      · exact .inr ⟨le_rfl, hrow hinit hb.labels⟩
  | addFix title safety edits =>
    obtain ⟨-, rfl⟩ | ⟨init, row, added, more, hinit, rfl, -⟩ := addFix_eq_some h
    · exact ⟨.inl, .inl⟩
    · refine ⟨.inl, fun howns => ?_⟩
      obtain ⟨-, howns⟩ | ⟨rfl, rfl⟩ := owns_lengthen (hinit ▸ hb.fixes_tile) howns
      · exact .inl (hinit ▸ howns)
      · exact .inr ⟨le_rfl, hrow hinit hb.fixes⟩
  | push d => exact hattaches.elim
  | append other => exact hattaches.elim
  | appendIf other keep => exact hattaches.elim

/-- **Rollback restores the buffer unless a call attached to an older row.** Truncating to a mark
gives the buffer of the mark exactly when no call since attached a label or a fix-it while the last
row was one that the mark has. And in a run whose attaching calls follow a push that was not dropped
and whose truncations go back to marks with nothing attached to their last row since, every state's
ranges lie inside their columns, no label or fix-it has two rows, each truncation restores the
buffer of its mark, and what is attached belongs to the row of the last push. -/
theorem rollback_exact (P : Parts) :
    (∀ (b b' : DiagBuf P) (m : DiagMark) (cs : List (Call P)), b.Aligned → b.mark = some m →
        b.calls cs = some b' → (b'.truncate m = b ↔ Fresh b.code.length b cs)) ∧
      ∀ s : State P, Transition.Run Step Allowed (State.start P) s →
        s.buf.Sound ∧ s.buf.Aligned ∧
        (∀ k t, Allowed s (.truncate k) → Step s (.truncate k) t → s.saved[k]? = some t.buf) ∧
        ∀ c t, c.Attaches → Allowed s (.call c) → Step s (.call c) t → ∀ i j,
          (Owns t.buf.labels i j →
            Owns s.buf.labels i j ∨ (s.buf.labelSpan.length ≤ j ∧ s.latest = some i)) ∧
          (Owns t.buf.fixes i j →
            Owns s.buf.fixes i j ∨ (s.buf.fixTitle.length ≤ j ∧ s.latest = some i)) := by
  refine ⟨fun b b' m cs hb hm hcs => truncate_eq_iff hb hm hcs, fun s hrun => ?_⟩
  have h := Inv.run hrun
  refine ⟨h.wellFormed.sound, h.wellFormed.toAligned, ?_, ?_⟩
  · intro k t hallowed hstep
    cases hstep with
    | @truncate _ b rest m hk hm =>
      obtain rfl := mark_eq_some hm
      have hget : s.saved[k]? = some b := by
        rw [← List.head?_drop, hk, List.head?_cons]
      have hsaved := h.saved b (List.mem_of_getElem? hget)
      show s.saved[k]? = some (s.buf.truncate b.lengths)
      rw [truncate_saved hsaved.1 hsaved.2 (hallowed b hget), hget]
  · intro c t hattaches hallowed hstep i j
    cases hstep with
    | call hc => exact owns_attach h.wellFormed h.latest hattaches (hallowed hattaches) hc i j

/-- Codes, spans and roots that are numbers. -/
def numbered : Parts := ⟨ℕ, ℕ, ℕ⟩

/-- An error with a root and an empty message. -/
def rooted : Row numbered := ⟨(0 : ℕ), .error, (0 : ℕ), [], some (1 : ℕ)⟩

/-- A row pushed after the mark takes its label away with it. -/
theorem rollback_pushed :
    ∃ b m b', (empty numbered).push rooted = some (b, true) ∧ b.mark = some m ∧
      b.calls [.push { rooted with root := none }, .addLabel (7 : ℕ) []] = some b' ∧
      b'.truncate m = b := by
  refine ⟨(empty numbered).withRow rooted, _, _, rfl, rfl, rfl, ?_⟩
  refine ((rollback_exact numbered).1 _ _ _
    [.push { rooted with root := none }, .addLabel (7 : ℕ) []] ?_ rfl rfl).mpr ?_
  · exact aligned_empty.call (show (empty numbered).call (.push rooted) = _ from rfl)
  · refine ⟨fun h => h.elim, fun b hb => ⟨fun _ => .inr ?_, fun _ _ => trivial⟩⟩
    obtain rfl := Option.some.inj hb
    decide

/-- A label attached after a mark to the row that was there makes its range too long for good, and
one attached after a dropped push goes to the row before. -/
theorem rollback_attached :
    ∃ b m b', (empty numbered).push rooted = some (b, true) ∧ b.mark = some m ∧
      b.addLabel (7 : ℕ) [] = some b' ∧ b'.truncate m ≠ b ∧ ¬(b'.truncate m).Sound ∧
      b.push rooted = some (b, false) ∧ ¬Owns b.labels 0 0 ∧ Owns b'.labels 0 0 := by
  refine ⟨(empty numbered).withRow rooted, _, _, rfl, rfl, rfl, ?_, ?_, rfl, ?_, ?_⟩
  · intro h
    have hlabels : [(⟨0, 1⟩ : Range32)] = [⟨0, 0⟩] := congrArg labels h
    exact absurd hlabels (by decide)
  · intro h
    exact absurd (h.labels_inside ⟨0, 1⟩ (List.mem_singleton.mpr rfl)).1 (by decide)
  · rintro ⟨r, hr, -, hlt⟩
    obtain rfl := Option.some.inj hr
    exact absurd hlt (by decide)
  · exact ⟨⟨0, 1⟩, rfl, by decide, by decide⟩

end DiagBuf

end HdLang.Diag
