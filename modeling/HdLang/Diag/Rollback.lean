import HdLang.Diag.Model

/-!
# What the calls do to a buffer

Every call leaves the columns as they were and adds to their ends, but for the last row's ranges,
which an attached label or fix-it makes longer.
-/

namespace HdLang.Diag

open List Option

variable {P : Parts}

theorem toU32_eq_some {n m : ℕ} (h : toU32 n = some m) : m = n := by
  unfold toU32 at h
  split at h
  · exact (some.inj h).symm
  · cases h

/-! ### Ranges of the rows -/

/-- `later` are the ranges `rs` with others behind them, and the last of `rs` perhaps longer. -/
structure Lengthened (rs later : List Range32) : Prop where
  length_le : rs.length ≤ later.length
  inner : ∀ i, i + 1 < rs.length → later[i]? = rs[i]?
  last : ∀ i r, i + 1 = rs.length → rs[i]? = some r →
    ∃ r', later[i]? = some r' ∧ r'.start = r.start ∧ r.len ≤ r'.len

variable {init : List Range32} {r : Range32}

namespace Lengthened

variable {rs later last : List Range32}

theorem of_prefix (h : rs <+: later) : Lengthened rs later where
  length_le := h.length_le
  inner i hi := by
    obtain ⟨tail, rfl⟩ := h
    exact List.getElem?_append_left (by omega)
  last i r _ hr := by
    obtain ⟨tail, rfl⟩ := h
    have hi : i < rs.length := (List.getElem?_eq_some_iff.mp hr).1
    exact ⟨r, by rw [List.getElem?_append_left hi, hr], rfl, le_rfl⟩

theorem refl (rs : List Range32) : Lengthened rs rs := of_prefix prefix_rfl

theorem trans (h : Lengthened rs later) (h' : Lengthened later last) : Lengthened rs last where
  length_le := h.length_le.trans h'.length_le
  inner i hi := by
    rw [h'.inner i (by have := h.length_le; omega), h.inner i hi]
  last i r hi hr := by
    obtain ⟨r', hr', hstart, hlen⟩ := h.last i r hi hr
    rcases Nat.lt_or_ge (i + 1) later.length with hlt | hge
    · exact ⟨r', by rw [h'.inner i hlt, hr'], hstart, hlen⟩
    · have hle := h.length_le
      obtain ⟨r'', hr'', hstart', hlen'⟩ := h'.last i r' (by omega) hr'
      exact ⟨r'', hr'', hstart'.trans hstart, hlen.trans hlen'⟩

theorem snoc {n : ℕ} (hn : r.len ≤ n) :
    Lengthened (init ++ [r]) (init ++ [⟨r.start, n⟩]) where
  length_le := by simp
  inner i hi := by
    have hi' : i < init.length := by simpa using hi
    rw [getElem?_append_left hi', getElem?_append_left hi']
  last i q hi hq := by
    have hi' : i = init.length := by simpa using hi
    subst hi'
    rw [getElem?_concat_length] at hq
    obtain rfl := some.inj hq
    exact ⟨_, getElem?_concat_length, rfl, hn⟩

end Lengthened

namespace DiagBuf

/-! ### The calls one by one -/

/-- The buffer with one more row. -/
def withRow (b : DiagBuf P) (d : Row P) : DiagBuf P :=
  { b with
    code := b.code ++ [d.code]
    severity := b.severity ++ [d.severity]
    primary := b.primary ++ [d.primary]
    message := b.message ++ [⟨b.text.length, d.message.length⟩]
    labels := b.labels ++ [⟨b.labelSpan.length, 0⟩]
    fixes := b.fixes ++ [⟨b.fixTitle.length, 0⟩]
    root := b.root ++ [d.root]
    text := b.text ++ d.message }

variable {b b' : DiagBuf P}

theorem pushText_eq_some {s : Bytes} (h : b.pushText s = some (b', r)) :
    b' = { b with text := b.text ++ s } ∧ r = ⟨b.text.length, s.length⟩ := by
  unfold pushText at h
  simp only [bind_eq_bind, bind_eq_some_iff] at h
  obtain ⟨start, hstart, len, hlen, h⟩ := h
  obtain ⟨rfl, rfl⟩ := Prod.mk.inj (some.inj h)
  rw [toU32_eq_some hstart, toU32_eq_some hlen]
  exact ⟨rfl, rfl⟩

theorem push_eq_some {d : Row P} {pushed : Bool} (h : b.push d = some (b', pushed)) :
    (pushed = false ∧ b' = b ∧ d.root.isSome ∧ d.root ∈ b.root) ∨
      (pushed = true ∧ b' = b.withRow d) := by
  unfold push at h
  split at h
  · next hroot =>
    obtain ⟨rfl, rfl⟩ := Prod.mk.inj (some.inj h)
    exact .inl ⟨rfl, rfl, hroot⟩
  · simp only [bind_eq_bind, bind_eq_some_iff] at h
    obtain ⟨⟨b₁, message⟩, htext, nl, hnl, nf, hnf, h⟩ := h
    obtain ⟨rfl, rfl⟩ := pushText_eq_some htext
    obtain ⟨rfl, rfl⟩ := Prod.mk.inj (some.inj h)
    rw [toU32_eq_some hnl, toU32_eq_some hnf]
    exact .inr ⟨rfl, rfl⟩

theorem lengthen_eq_some {out : List Range32} {row : Range32}
    (h : lengthen (init ++ [row]) row = some out) : out = init ++ [⟨row.start, row.len + 1⟩] := by
  unfold lengthen at h
  simp only [bind_eq_bind, bind_eq_some_iff] at h
  obtain ⟨len, hlen, h⟩ := h
  rw [toU32_eq_some hlen, dropLast_concat] at h
  exact (some.inj h).symm

variable {span : P.Span} {message : Bytes}

theorem addLabel_eq_some (h : b.addLabel span message = some b') :
    (b.labels = [] ∧ b' = b) ∨
      ∃ init row, b.labels = init ++ [row] ∧ b' = { b with
        labels := init ++ [⟨row.start, row.len + 1⟩]
        labelSpan := b.labelSpan ++ [span]
        labelMsg := b.labelMsg ++ [⟨b.text.length, message.length⟩]
        text := b.text ++ message } := by
  unfold addLabel at h
  split at h
  · next hnone => exact .inl ⟨getLast?_eq_none_iff.mp hnone, (some.inj h).symm⟩
  · next row hrow =>
    obtain ⟨init, hinit⟩ := getLast?_eq_some_iff.mp hrow
    simp only [bind_eq_bind, bind_eq_some_iff] at h
    obtain ⟨labels, hlabels, ⟨b₁, range⟩, htext, h⟩ := h
    rw [hinit] at hlabels
    obtain rfl := lengthen_eq_some hlabels
    obtain ⟨rfl, rfl⟩ := pushText_eq_some htext
    exact .inr ⟨init, row, hinit, (some.inj h).symm⟩

variable {edits : List (P.Span × Bytes)}

theorem pushEdits_eq_some (h : b.pushEdits edits = some b') :
    ∃ (added : List (FixEdit P)) (more : Bytes),
      b' = { b with edits := b.edits ++ added, text := b.text ++ more } ∧
        added.length = edits.length ∧ ∀ e ∈ added, e.text.stop ≤ (b.text ++ more).length := by
  induction edits generalizing b with
  | nil =>
    obtain rfl := some.inj h
    exact ⟨[], [], by simp, rfl, by simp⟩
  | cons edit edits ih =>
    obtain ⟨span, text⟩ := edit
    unfold pushEdits at h
    simp only [bind_eq_bind, bind_eq_some_iff] at h
    obtain ⟨⟨b₁, range⟩, htext, h⟩ := h
    obtain ⟨rfl, rfl⟩ := pushText_eq_some htext
    obtain ⟨added, more, rfl, hlength, hadded⟩ := ih h
    refine ⟨⟨span, ⟨b.text.length, text.length⟩⟩ :: added, text ++ more, by simp, by simp [hlength],
      ?_⟩
    intro e he
    obtain rfl | he := mem_cons.mp he
    · simp [Range32.stop]
    · simpa using hadded e he

variable {title : Bytes} {safety : FixSafety}

theorem addFix_eq_some (h : b.addFix title safety edits = some b') :
    (b.fixes = [] ∧ b' = b) ∨
      ∃ init row added more, b.fixes = init ++ [row] ∧ b' = { b with
        fixes := init ++ [⟨row.start, row.len + 1⟩]
        fixTitle := b.fixTitle ++ [⟨b.text.length, title.length⟩]
        fixSafety := b.fixSafety ++ [safety]
        fixEdits := b.fixEdits ++ [⟨b.edits.length, edits.length⟩]
        edits := b.edits ++ added
        text := b.text ++ (title ++ more) } ∧ added.length = edits.length ∧
        ∀ e ∈ added, e.text.stop ≤ (b.text ++ (title ++ more)).length := by
  unfold addFix at h
  split at h
  · next hnone => exact .inl ⟨getLast?_eq_none_iff.mp hnone, (some.inj h).symm⟩
  · next row hrow =>
    obtain ⟨init, hinit⟩ := getLast?_eq_some_iff.mp hrow
    simp only [bind_eq_bind, bind_eq_some_iff] at h
    obtain ⟨fixes, hfixes, ⟨b₁, range⟩, htext, start, hstart, len, hlen, h⟩ := h
    rw [hinit] at hfixes
    obtain rfl := lengthen_eq_some hfixes
    obtain ⟨rfl, rfl⟩ := pushText_eq_some htext
    rw [toU32_eq_some hstart, toU32_eq_some hlen] at h
    obtain ⟨added, more, rfl, hlength, hadded⟩ := pushEdits_eq_some h
    exact .inr ⟨init, row, added, more, hinit, by simp, hlength, by simpa using hadded⟩

/-! ### Induction over an append -/

variable {other : DiagBuf P}

/-- **What appending a row does.** `Within` holds while the labels and fix-its of the row just
pushed are added: nothing is attached to a row that another call pushed. -/
theorem appendRow_keeps (Inv Within After : DiagBuf P → Prop)
    (hpush : ∀ {b d b'}, Inv b → b.push d = some (b', true) → Within b')
    (hlabel : ∀ {b span message b'}, Within b → b.addLabel span message = some b' → Within b')
    (hfix : ∀ {b title safety edits b'}, Within b → b.addFix title safety edits = some b' → Within
    b') (hafter : ∀ {b}, Within b → After b) (hdropped : ∀ {b}, Inv b → After b) {i : ℕ}
    (hb : Inv b) (h : b.appendRow other i = some b') :
    After b' := by
  have hlabels : ∀ (is : List ℕ) {b b' : DiagBuf P}, Within b →
      b.addLabels other is = some b' → Within b' := by
    intro is
    induction is with
    | nil => intro b b' hb h; rwa [← some.inj h]
    | cons i is ih =>
      intro b b' hb h
      simp only [addLabels, bind_eq_bind, bind_eq_some_iff] at h
      obtain ⟨span, -, range, -, message, -, b₁, hadd, h⟩ := h
      exact ih (hlabel hb hadd) h
  have hfixes : ∀ (is : List ℕ) {b b' : DiagBuf P}, Within b →
      b.addFixes other is = some b' → Within b' := by
    intro is
    induction is with
    | nil => intro b b' hb h; rwa [← some.inj h]
    | cons i is ih =>
      intro b b' hb h
      simp only [addFixes, bind_eq_bind, bind_eq_some_iff] at h
      obtain ⟨range, -, edits, -, titleRange, -, title, -, safety, -, b₁, hadd, h⟩ := h
      exact ih (hfix hb hadd) h
  simp only [appendRow, bind_eq_bind, bind_eq_some_iff] at h
  obtain ⟨code, -, severity, -, primary, -, range, -, message, -, root, -, ⟨b₁, pushed⟩, hpushed, h⟩
    := h
  cases pushed with
  | false =>
    obtain ⟨-, rfl, -⟩ | ⟨hfalse, -⟩ := push_eq_some hpushed
    · obtain rfl := some.inj h
      exact hdropped hb
    · cases hfalse
  | true =>
    simp only [if_true, bind_eq_some_iff] at h
    obtain ⟨labels, -, is, -, b₂, hadded, fixes, -, js, -, h⟩ := h
    exact hafter (hfixes js (hlabels is (hpush hb hpushed) hadded) h)

theorem appendIf_keeps (Inv Within : DiagBuf P → Prop)
    (hpush : ∀ {b d b'}, Inv b → b.push d = some (b', true) → Within b')
    (hlabel : ∀ {b span message b'}, Within b → b.addLabel span message = some b' → Within b')
    (hfix : ∀ {b title safety edits b'}, Within b → b.addFix title safety edits = some b' → Within
    b') (hinv : ∀ {b}, Within b → Inv b) {keep : P.Code → Bool} (hb : Inv b)
    (h : b.appendIf other keep = some b') : Inv b' := by
  unfold appendIf at h
  generalize range other.code.length = is at h
  induction is generalizing b with
  | nil => rwa [← some.inj h]
  | cons i is ih =>
    simp only [appendFrom, bind_eq_bind, bind_eq_some_iff] at h
    obtain ⟨code, -, b₁, hrow, h⟩ := h
    refine ih ?_ h
    cases hkeep : keep code with
    | false =>
      rw [hkeep] at hrow
      obtain rfl := some.inj hrow
      exact hb
    | true =>
      rw [hkeep] at hrow
      exact appendRow_keeps Inv Within Inv hpush hlabel hfix hinv id hb hrow

variable {c : Call P}

/-- The induction over the calls: what a push, a label and a fix-it keep, every call keeps. -/
theorem call_keeps (Inv : DiagBuf P → Prop)
    (hpush : ∀ {b d b'}, Inv b → b.push d = some (b', true) → Inv b')
    (hlabel : ∀ {b span message b'}, Inv b → b.addLabel span message = some b' → Inv b')
    (hfix : ∀ {b title safety edits b'}, Inv b → b.addFix title safety edits = some b' → Inv b')
    (hb : Inv b) (h : b.call c = some b') : Inv b' := by
  cases c with
  | push d =>
    obtain ⟨⟨b₁, pushed⟩, hpushed, rfl⟩ := map_eq_some_iff.mp h
    cases pushed with
    | false =>
      obtain ⟨-, rfl, -⟩ | ⟨hfalse, -⟩ := push_eq_some hpushed
      · exact hb
      · cases hfalse
    | true => exact hpush hb hpushed
  | addFix title safety edits => exact hfix hb h
  | addLabel span message => exact hlabel hb h
  | append other => exact appendIf_keeps Inv Inv hpush hlabel hfix id hb h
  | appendIf other keep => exact appendIf_keeps Inv Inv hpush hlabel hfix id hb h

/-! ### Growth -/

/-- The row columns are of one length, and so are the label columns and the fix-it columns. -/
structure Aligned (b : DiagBuf P) : Prop where
  severity : b.severity.length = b.code.length
  primary : b.primary.length = b.code.length
  message : b.message.length = b.code.length
  labels : b.labels.length = b.code.length
  fixes : b.fixes.length = b.code.length
  root : b.root.length = b.code.length
  labelMsg : b.labelMsg.length = b.labelSpan.length
  fixSafety : b.fixSafety.length = b.fixTitle.length
  fixEdits : b.fixEdits.length = b.fixTitle.length

theorem aligned_empty : (empty P).Aligned := by
  constructor <;> rfl

theorem Aligned.call (h : b.Aligned) (hc : b.call c = some b') :
    b'.Aligned := by
  refine call_keeps Aligned ?_ ?_ ?_ h hc
  · intro b d b' h hpush
    obtain ⟨hfalse, -⟩ | ⟨-, rfl⟩ := push_eq_some hpush
    · cases hfalse
    · obtain ⟨h₁, h₂, h₃, h₄, h₅, h₆, h₇, h₈, h₉⟩ := h
      constructor <;> simp [withRow, *]
  · intro b span message b' h hadd
    obtain ⟨-, rfl⟩ | ⟨init, row, hinit, rfl⟩ := addLabel_eq_some hadd
    · exact h
    · obtain ⟨h₁, h₂, h₃, h₄, h₅, h₆, h₇, h₈, h₉⟩ := h
      rw [hinit] at h₄
      constructor <;> simp_all
  · intro b title safety edits b' h hadd
    obtain ⟨-, rfl⟩ | ⟨init, row, added, more, hinit, rfl, -⟩ := addFix_eq_some hadd
    · exact h
    · obtain ⟨h₁, h₂, h₃, h₄, h₅, h₆, h₇, h₈, h₉⟩ := h
      rw [hinit] at h₅
      constructor <;> simp_all

/-- The columns of `b` are at the front of those of `later`, but for the last row's ranges, which
may be longer there. -/
structure Grown (b later : DiagBuf P) : Prop where
  code : b.code <+: later.code
  severity : b.severity <+: later.severity
  primary : b.primary <+: later.primary
  message : b.message <+: later.message
  labels : Lengthened b.labels later.labels
  fixes : Lengthened b.fixes later.fixes
  root : b.root <+: later.root
  labelSpan : b.labelSpan <+: later.labelSpan
  labelMsg : b.labelMsg <+: later.labelMsg
  fixTitle : b.fixTitle <+: later.fixTitle
  fixSafety : b.fixSafety <+: later.fixSafety
  fixEdits : b.fixEdits <+: later.fixEdits
  edits : b.edits <+: later.edits
  text : b.text <+: later.text

theorem Grown.refl (b : DiagBuf P) : Grown b b := by
  constructor <;> first | exact prefix_rfl | exact Lengthened.refl _

theorem Grown.trans {b c d : DiagBuf P} (h : Grown b c) (h' : Grown c d) : Grown b d where
  code := h.code.trans h'.code
  severity := h.severity.trans h'.severity
  primary := h.primary.trans h'.primary
  message := h.message.trans h'.message
  labels := h.labels.trans h'.labels
  fixes := h.fixes.trans h'.fixes
  root := h.root.trans h'.root
  labelSpan := h.labelSpan.trans h'.labelSpan
  labelMsg := h.labelMsg.trans h'.labelMsg
  fixTitle := h.fixTitle.trans h'.fixTitle
  fixSafety := h.fixSafety.trans h'.fixSafety
  fixEdits := h.fixEdits.trans h'.fixEdits
  edits := h.edits.trans h'.edits
  text := h.text.trans h'.text

theorem grown_withRow (b : DiagBuf P) (d : Row P) : Grown b (b.withRow d) := by
  constructor <;>
    first
      | exact prefix_append _ _
      | exact prefix_rfl
      | exact Lengthened.of_prefix (prefix_append _ _)

theorem grown_addLabel (h : b.addLabel span message = some b') : Grown b b' := by
  obtain ⟨-, rfl⟩ | ⟨init, row, hinit, rfl⟩ := addLabel_eq_some h
  · exact Grown.refl _
  · constructor <;>
      first
        | exact prefix_append _ _
        | exact prefix_rfl
        | exact Lengthened.refl _
        | exact hinit ▸ Lengthened.snoc (Nat.le_succ _)

theorem grown_addFix (h : b.addFix title safety edits = some b') : Grown b b' := by
  obtain ⟨-, rfl⟩ | ⟨init, row, added, more, hinit, rfl, -⟩ := addFix_eq_some h
  · exact Grown.refl _
  · constructor <;>
      first
        | exact prefix_append _ _
        | exact prefix_rfl
        | exact Lengthened.refl _
        | exact hinit ▸ Lengthened.snoc (Nat.le_succ _)

theorem grown_call {b b' : DiagBuf P} {c : Call P} (h : b.call c = some b') : Grown b b' := by
  refine call_keeps (Grown b) ?_ ?_ ?_ (Grown.refl b) h
  · intro c d c' hgrown hpush
    obtain ⟨hfalse, -⟩ | ⟨-, rfl⟩ := push_eq_some hpush
    · cases hfalse
    · exact hgrown.trans (grown_withRow c d)
  · intro c span message c' hgrown hadd
    exact hgrown.trans (grown_addLabel hadd)
  · intro c title safety edits c' hgrown hadd
    exact hgrown.trans (grown_addFix hadd)

theorem grown_calls {cs : List (Call P)} (h : b.calls cs = some b') :
    Grown b b' := by
  induction cs generalizing b with
  | nil => exact some.inj h ▸ Grown.refl b
  | cons c cs ih =>
    obtain ⟨b₁, hc, h⟩ := bind_eq_some_iff.mp h
    exact (grown_call hc).trans (ih h)

end DiagBuf

end HdLang.Diag
