import HdLang.Journal.Events
import HdLang.Journal.Framing

/-!
# Reading a journal back

What `read` gives is a `Chain`: rows framed one after another whose event indexes count up from 0.
It reads every such chain to its end (`readLoop_chain`), it gives nothing else, and it panics
exactly when a row that claims too long a payload stands after one (`read_spec`, `read_of_claims`).
-/

namespace HdLang.Journal

open Cursor List

variable {b f g : Bytes} {i j n : ℕ} {row : Row} {rows acc : List Row}

/-- The event indexes of the rows count up from `n`. -/
def Numbered (n : ℕ) : List Row → Prop
  | [] => True
  | row :: rows => row.index.toNat = n ∧ Numbered (n + 1) rows

/-- `g` is the rows, framed one after another, and their event indexes count up from `n`. -/
inductive Chain : ℕ → List Row → Bytes → Prop
  | nil (n : ℕ) : Chain n [] []
  | cons {n : ℕ} {row : Row} {rows : List Row} {f g : Bytes} (hframed : Framed row f)
    (hindex : row.index.toNat = n) (hrest : Chain (n + 1) rows g) : Chain n (row :: rows) (f ++ g)

theorem Chain.numbered (h : Chain n rows g) : Numbered n rows := by
  induction h with
  | nil => trivial
  | cons _ hindex _ ih => exact ⟨hindex, ih⟩

theorem Framed.length_pos (h : Framed row f) : 0 < f.length := by
  obtain ⟨hd, -, rfl⟩ := h
  simp only [length_append, length_toLeBytes]
  omega

/-! ### The turns of the loop -/

section Turns

variable {k : UInt8} (hk : b[i]? = some k) (fuel : ℕ)
include hk

theorem readLoop_miss (hrun : (parsed b k).run i = .error .miss) :
    readLoop b (fuel + 1) acc i = .ok (acc, i) := by
  simp only [readLoop, hk, hrun]
  rfl

theorem readLoop_overflow (hrun : (parsed b k).run i = .error .overflow) :
    readLoop b (fuel + 1) acc i = .error .overflow := by
  simp only [readLoop, hk, hrun]
  rfl

theorem readLoop_row {m : ℕ} (hrun : (parsed b k).run i = .ok (row, m)) (hm : m + 4 < SIZES) :
    readLoop b (fuel + 1) acc i =
      if row.index.toNat = acc.length then readLoop b fuel (acc ++ [row]) (m + 4)
      else .ok (acc, i) := by
  simp only [readLoop, hk, hrun, plus_run hm]
  rfl

end Turns

theorem readLoop_end (hi : b.length ≤ i) (fuel : ℕ) :
    readLoop b (fuel + 1) acc i = .ok (acc, i) := by
  simp only [readLoop, List.getElem?_eq_none hi]
  rfl

/-- A turn ends the reading, or passes a row, or panics at a claim. -/
theorem readLoop_cases (hb : b.length < SLICES) (acc : List Row) (i : ℕ) :
    (∀ fuel, readLoop b (fuel + 1) acc i = .ok (acc, i)) ∨
    (∃ row f j, Framed row f ∧ Spans b i j f ∧ row.index.toNat = acc.length ∧
      ∀ fuel, readLoop b (fuel + 1) acc i = readLoop b fuel (acc ++ [row]) j) ∨
    (Claims b i ∧ ∀ fuel, readLoop b (fuel + 1) acc i = .error .overflow) := by
  cases hk : b[i]? with
  | none => exact Or.inl (readLoop_end (List.getElem?_eq_none_iff.mp hk))
  | some k =>
    have hspec := parsed_ensures hk hb
    unfold Ensures at hspec
    cases hrun : (parsed b k).run i with
    | ok p =>
      obtain ⟨row, m⟩ := p
      rw [hrun] at hspec
      obtain ⟨f, hf, hspans⟩ := hspec
      have hm : m + 4 < SIZES := lt_of_le_of_lt hspans.le_length (lt_trans hb (by decide))
      by_cases hindex : row.index.toNat = acc.length
      · refine Or.inr (Or.inl ⟨row, f, m + 4, hf, hspans, hindex, fun fuel => ?_⟩)
        rw [readLoop_row hk fuel hrun hm, if_pos hindex]
      · refine Or.inl fun fuel => ?_
        rw [readLoop_row hk fuel hrun hm, if_neg hindex]
    | error halt =>
      rw [hrun] at hspec
      rcases hspec with rfl | ⟨rfl, hclaim⟩
      · exact Or.inl fun fuel => readLoop_miss hk fuel hrun
      · exact Or.inr (Or.inr ⟨hclaim, fun fuel => readLoop_overflow hk fuel hrun⟩)

theorem readLoop_chain (h : Chain n rows g) (hn : acc.length = n) (hspans : Spans b i j g)
    (hj : j < SIZES) (fuel : ℕ) :
    readLoop b (rows.length + fuel) acc i = readLoop b fuel (acc ++ rows) j := by
  induction h generalizing acc i with
  | nil =>
    rw [length_nil, Nat.zero_add, append_nil, hspans.eq_add, length_nil, Nat.add_zero]
  | @cons n row rows f g hframed hindex hrest ih =>
    obtain ⟨hfirst, hlater⟩ := hspans.split
    have hend := hlater.eq_add
    obtain ⟨k, m, hk, hrun, hm⟩ := parsed_of_framed hframed hfirst (by omega)
    have hacc : (acc ++ [row]).length = n + 1 := by
      rw [length_append, hn, length_singleton]
    rw [length_cons, Nat.add_right_comm, readLoop_row hk _ hrun (by omega),
      if_pos (hindex.trans hn.symm), hm, ih hacc hlater, append_assoc, singleton_append]

/-- The bytes of `b` hold a chain of whole rows and then one that claims too long a payload. -/
def Overflows (b : Bytes) (i n : ℕ) : Prop :=
  ∃ rows g j, Chain n rows g ∧ Spans b i j g ∧ Claims b j

/-- The loop gives a chain, or it panics at a claim after one. -/
theorem readLoop_spec (acc : List Row) (hb : b.length < SLICES) {fuel : ℕ} (hfuel : b.length - i < fuel)
    (hi : i ≤ b.length) :
    (∃ rows g j, readLoop b fuel acc i = .ok (acc ++ rows, j) ∧ Chain acc.length rows g ∧
      Spans b i j g) ∨
    readLoop b fuel acc i = .error .overflow ∧ Overflows b i acc.length := by
  induction fuel generalizing i acc with
  | zero => omega
  | succ fuel ih =>
    rcases readLoop_cases hb acc i with hstop | ⟨row, f, j, hf, hspans, hindex, hturn⟩ |
      ⟨hclaim, hpanic⟩
    · exact Or.inl ⟨[], [], i, by rw [hstop, append_nil], Chain.nil _, Spans.nil hi⟩
    · have hpos := hf.length_pos
      have hj := hspans.eq_add
      have hle := hspans.le_length
      have hacc : (acc ++ [row]).length = acc.length + 1 := by
        rw [length_append, length_singleton]
      rw [hturn]
      rcases ih (acc ++ [row]) (by omega) hle with ⟨rows, g, m, hrun, hchain, hrest⟩ |
        ⟨hrun, rows, g, m, hchain, hrest, hclaim⟩
      · rw [hacc] at hchain
        refine Or.inl ⟨row :: rows, f ++ g, m, ?_, Chain.cons hf hindex hchain, hspans.append hrest⟩
        rw [hrun, append_assoc, singleton_append]
      · rw [hacc] at hchain
        exact Or.inr ⟨hrun, row :: rows, f ++ g, m, Chain.cons hf hindex hchain,
          hspans.append hrest, hclaim⟩
    · exact Or.inr ⟨hpanic fuel, [], [], i, Chain.nil _, Spans.nil hi, hclaim⟩

/-! ### The whole -/

theorem Chain.length_le (h : Chain n rows g) : rows.length ≤ g.length := by
  induction h with
  | nil => exact le_refl _
  | cons hframed _ _ ih =>
    have hpos := hframed.length_pos
    rw [length_cons, length_append]
    omega

/-- `read` gives a chain, or it panics at a claim after one. -/
theorem read_spec (hb : b.length < SLICES) :
    (∃ rows g j, read b = .ok (rows, j) ∧ Chain 0 rows g ∧ Spans b 0 j g) ∨
    read b = .error .overflow ∧ Overflows b 0 0 :=
  readLoop_spec [] hb (by omega) (Nat.zero_le _)

/-- A chain is read, and then what stands after it decides. -/
theorem read_chain (h : Chain 0 rows g) (hspans : Spans b 0 j g) (hj : j < SIZES) :
    ∃ fuel, read b = readLoop b (fuel + 1) rows j := by
  have hle := hspans.le_length
  have hlen := h.length_le
  have hg := hspans.eq_add
  refine ⟨b.length - rows.length, ?_⟩
  have hfuel : b.length + 1 = rows.length + (b.length - rows.length + 1) := by omega
  rw [read, hfuel, readLoop_chain h rfl hspans hj, nil_append]

theorem read_of_chain (h : Chain 0 rows g) (hg : g.length < SIZES) :
    read g = .ok (rows, g.length) := by
  obtain ⟨fuel, hrun⟩ := read_chain h (Spans.whole g) hg
  rw [hrun, readLoop_end (le_refl _)]

theorem read_of_overflows (hb : b.length < SLICES) (h : Overflows b 0 0) :
    read b = .error .overflow := by
  obtain ⟨rows, g, j, hchain, hspans, hclaim⟩ := h
  have hb' : b.length < SIZES := lt_trans hb (by decide)
  obtain ⟨fuel, hrun⟩ := read_chain hchain hspans (lt_of_le_of_lt hspans.le_length hb')
  obtain ⟨k, hk, hpanic⟩ := parsed_of_claims hclaim hb'
  rw [hrun, readLoop_overflow hk fuel hpanic]

end HdLang.Journal

/-!
## Torn journals and damaged bytes

A journal is rows appended one after another. Cut anywhere, it reads as the rows wholly before the
cut, so that a writer can resume after them; and of arbitrary bytes the decoder makes an answer,
while `read` panics exactly at a row that claims a payload past the last `usize`.
-/

namespace HdLang.Journal

open Cursor Leb128 LittleEndian Ensures List

variable {b f g : Bytes} {i j n : ℕ} {row : Row} {rows : List Row}

/-! ### What is written -/

theorem appendParts_eq (out : Bytes) (kind : RowKind) (ix : UInt64) (payload : Bytes) :
    appendParts out kind ix payload = out ++ appendParts [] kind ix payload := by
  simp only [appendParts, putUleb_eq, append_assoc, drop_left, nil_append, length_nil, drop_zero]

theorem length_appendParts (out : Bytes) (kind : RowKind) (ix : UInt64) (payload : Bytes) :
    (appendParts out kind ix payload).length = out.length +
      (1 + ulebLen ix + ulebLen (UInt64.ofNat payload.length) + payload.length + 4) := by
  simp only [appendParts, putUleb_eq, ulebLen_eq, length_append, length_toLeBytes, length_singleton]
  omega

theorem append_eq (out : Bytes) (row : Row) : append out row = out ++ append [] row :=
  appendParts_eq out row.kind row.index row.payload

theorem framed_append (row : Row) : Framed row (append [] row) := by
  refine ⟨row.kind.toByte :: (encode row.index.toNat ++
    encode (UInt64.ofNat row.payload.length).toNat), ?_, ?_⟩
  · exact ⟨_, _, uleb_encode _, uleb_encode _, rfl⟩
  · simp only [append, appendParts, putUleb_eq, append_assoc, nil_append, length_nil, drop_zero,
      cons_append]

/-- The journal of the rows. -/
def journal (rows : List Row) : Bytes := rows.foldl append []

theorem foldl_append (out : Bytes) (rows : List Row) :
    rows.foldl append out = out ++ journal rows := by
  induction rows generalizing out with
  | nil => rw [foldl_nil, journal, foldl_nil, append_nil]
  | cons row rows ih =>
    have hjournal : journal (row :: rows) = append [] row ++ journal rows := ih (append [] row)
    rw [foldl_cons, ih, append_eq, hjournal, append_assoc]

@[simp] theorem journal_cons (row : Row) (rows : List Row) :
    journal (row :: rows) = append [] row ++ journal rows := by
  rw [journal, foldl_cons, foldl_append]

theorem journal_append (rows more : List Row) :
    journal (rows ++ more) = journal rows ++ journal more := by
  rw [journal, List.foldl_append, foldl_append, ← journal]

theorem chain_journal (h : Numbered n rows) : Chain n rows (journal rows) := by
  induction rows generalizing n with
  | nil => exact Chain.nil n
  | cons row rows ih =>
    rw [journal_cons]
    exact Chain.cons (framed_append row) h.1 (ih h.2)

theorem numbered_append {more : List Row} :
    Numbered n (rows ++ more) ↔ Numbered n rows ∧ Numbered (n + rows.length) more := by
  induction rows generalizing n with
  | nil => exact (and_iff_right trivial).symm
  | cons row rows ih =>
    rw [cons_append, Numbered, Numbered, ih, and_assoc, length_cons, Nat.add_right_comm,
      Nat.add_assoc]

/-! ### Cuts -/

/-- The rows of a journal wholly before `cut`. -/
def whole : List Row → ℕ → List Row
  | [], _ => []
  | row :: rows, cut =>
    if (append [] row).length ≤ cut then row :: whole rows (cut - (append [] row).length) else []

/-- The row after those wholly before the cut, when there is one, ends past it. -/
theorem whole_spec (rows : List Row) (cut : ℕ) :
    ∃ rest, rows = whole rows cut ++ rest ∧ (journal (whole rows cut)).length ≤ cut ∧
      ∀ row ∈ rest.head?, cut < (journal (whole rows cut)).length + (append [] row).length := by
  induction rows generalizing cut with
  | nil => exact ⟨[], rfl, Nat.zero_le _, by simp⟩
  | cons row rows ih =>
    rw [whole]
    split
    next hfits =>
      obtain ⟨rest, hrows, hle, hnext⟩ := ih (cut - (append [] row).length)
      refine ⟨rest, by rw [cons_append, ← hrows], ?_, fun row' hrow' => ?_⟩
      · rw [journal_cons, length_append]
        omega
      · have := hnext row' hrow'
        rw [journal_cons, length_append]
        omega
    next hover =>
      refine ⟨row :: rows, rfl, Nat.zero_le _, fun row' hrow' => ?_⟩
      rw [List.head?_cons, Option.mem_some_iff] at hrow'
      rw [← hrow', journal, foldl_nil, length_nil]
      omega

theorem whole_self (rows : List Row) : whole rows (journal rows).length = rows := by
  induction rows with
  | nil => rfl
  | cons row rows ih =>
    rw [whole, journal_cons, length_append, if_pos (Nat.le_add_right _ _), Nat.add_sub_cancel_left,
      ih]

theorem readLoop_inside (row : Row) (hg : b.length < i + (append [] row).length) {c : Bytes}
    (hc : (b ++ c).length < SLICES)
    (hspans : Spans (b ++ c) i (i + (append [] row).length) (append [] row)) (acc : List Row)
    (fuel : ℕ) : readLoop b (fuel + 1) acc i = .ok (acc, i) := by
  have hc' : (b ++ c).length < SIZES := lt_trans hc (by decide)
  have hb : b.length < SLICES := by
    rw [length_append] at hc
    omega
  obtain ⟨k, n, hk, hrun, hn⟩ :=
    parsed_of_framed (framed_append row) hspans (lt_of_le_of_lt hspans.le_length hc')
  -- whatever the loop finds in the cut bytes also stands in the whole ones
  rcases readLoop_cases hb acc i with hstop | ⟨row', f, j, hf, hfspans, -, -⟩ | ⟨hclaim, -⟩
  · exact hstop fuel
  · have hwhole := hfspans.mono c
    obtain ⟨k', n', hk', hrun', hn'⟩ :=
      parsed_of_framed hf hwhole (lt_of_le_of_lt hwhole.le_length hc')
    rw [hk, Option.some.injEq] at hk'
    rw [← hk', hrun, Except.ok.injEq, Prod.mk.injEq] at hrun'
    have := hfspans.le_length
    omega
  · obtain ⟨kind, ix, len, h, j, hhead, hhspans, hlen⟩ := hclaim
    obtain ⟨k', hk', hrun'⟩ :=
      parsed_of_claims ⟨kind, ix, len, h, j, hhead, hhspans.mono c, hlen⟩ hc'
    rw [hk, Option.some.injEq] at hk'
    rw [← hk', hrun] at hrun'
    exact absurd hrun' (by simp)

/-- A cut journal reads as the rows wholly before the cut. -/
theorem read_take (hnum : Numbered 0 rows) (hfits : (journal rows).length < SLICES) (cut : ℕ) :
    read ((journal rows).take cut) = .ok (whole rows cut, (journal (whole rows cut)).length) := by
  obtain ⟨rest, hrows, hle, hnext⟩ := whole_spec rows cut
  generalize hkept : whole rows cut = kept at *
  have hfull : (journal rows).take cut ++ (journal rows).drop cut = journal rows :=
    take_append_drop cut (journal rows)
  have hparts : journal rows = journal kept ++ journal rest := by rw [hrows, journal_append]
  have hlen : (journal kept).length ≤ ((journal rows).take cut).length := by
    rw [length_take, hparts, length_append]
    omega
  have hspans : Spans ((journal rows).take cut) 0 (journal kept).length (journal kept) := by
    have hpre : (((journal rows).take cut).drop 0).take ((journal kept).length - 0) =
        journal kept := by
      rw [drop_zero, Nat.sub_zero, take_take, Nat.min_eq_left hle, hparts, take_left]
    have h := Spans.of_le (Nat.zero_le _) hlen
    rwa [hpre] at h
  have hfits' : ((journal rows).take cut).length < SIZES :=
    lt_of_le_of_lt (length_take_le' _ _) (lt_trans hfits (by decide))
  rw [hrows] at hnum
  obtain ⟨fuel, hrun⟩ := read_chain (chain_journal (numbered_append.mp hnum).1) hspans
    (lt_of_le_of_lt hlen hfits')
  rw [hrun]
  cases rest with
  | nil =>
    apply readLoop_end
    rw [hparts]
    simp [journal]
  | cons row rest =>
    have hpast := hnext row rfl
    apply readLoop_inside row _ (c := (journal rows).drop cut)
    · rwa [hfull]
    · rw [hfull, hparts, journal_cons]
      exact ⟨journal kept, journal rest, by simp only [append_assoc], rfl, rfl⟩
    · rw [length_take]
      omega

/-- Cut anywhere, the journal of the rows reads as the rows wholly before the cut, and rows that are
appended after the last of them read as their continuation. -/
def TornSafe (rows : List Row) : Prop :=
  ∀ cut, ∃ valid, read ((journal rows).take cut) = .ok (whole rows cut, valid) ∧
    valid = (journal (whole rows cut)).length ∧
    ∀ more, Numbered (whole rows cut).length more →
      ∀ resumed, resumed = more.foldl append (((journal rows).take cut).take valid) →
        resumed.length < SLICES → read resumed = .ok (whole rows cut ++ more, resumed.length)

theorem tornSafe (hnum : Numbered 0 rows) (hfits : (journal rows).length < SLICES) :
    TornSafe rows := by
  intro cut
  refine ⟨_, read_take hnum hfits cut, rfl, ?_⟩
  rintro more hmore resumed rfl hresumed
  obtain ⟨rest, hrows, hle, -⟩ := whole_spec rows cut
  have hkept : ((journal rows).take cut).take (journal (whole rows cut)).length =
      journal (whole rows cut) := by
    have hparts : journal rows = journal (whole rows cut) ++ journal rest := by
      rw [← journal_append, ← hrows]
    rw [take_take, Nat.min_eq_left hle, hparts, take_left]
  rw [hrows] at hnum
  have hnum' : Numbered 0 (whole rows cut ++ more) :=
    numbered_append.mpr ⟨(numbered_append.mp hnum).1, by rwa [Nat.zero_add]⟩
  rw [hkept, foldl_append, ← journal_append] at hresumed ⊢
  exact read_of_chain (chain_journal hnum') (lt_trans hresumed (by decide))

/-- Rows whose event indexes do not count up from 0 are not read back. -/
theorem tornSafe_iff (hfits : (journal rows).length < SLICES) :
    TornSafe rows ↔ Numbered 0 rows := by
  refine ⟨fun h => ?_, fun h => tornSafe h hfits⟩
  obtain ⟨valid, hread, -, -⟩ := h (journal rows).length
  rw [take_length, whole_self] at hread
  rcases read_spec hfits with ⟨rows', g, j, hrun, hchain, -⟩ | ⟨hrun, -⟩
  · rw [hread, Except.ok.injEq, Prod.mk.injEq] at hrun
    rw [hrun.1]
    exact hchain.numbered
  · rw [hread] at hrun
    exact absurd hrun (by simp)

/-! ### Damaged bytes -/

theorem read_returns_iff (hb : b.length < SLICES) : (∃ r, read b = .ok r) ↔ ¬Overflows b 0 0 := by
  constructor
  · rintro ⟨r, hr⟩ hover
    rw [read_of_overflows hb hover] at hr
    exact absurd hr (by simp)
  · intro hno
    rcases read_spec hb with ⟨rows, g, j, hrun, -, -⟩ | ⟨-, hover⟩
    · exact ⟨_, hrun⟩
    · exact absurd hover hno

/-- The reader does not panic on `b`, and it stays inside it. -/
def Tame {α : Type} (b : Bytes) (x : Read α) : Prop :=
  ∀ i ≤ b.length, Ensures (· = .miss) x (fun _ j => j ≤ b.length) i

namespace Tame

variable {α γ : Type} {x : Read α} {k : α → Read γ}

protected theorem pure (a : α) : Tame b (pure a : Read α) := fun _ hi => pure_iff.mpr hi

protected theorem bind (hx : Tame b x) (hk : ∀ a, Tame b (k a)) : Tame b (x >>= k) := by
  intro i hi
  rw [bind_iff]
  exact (hx i hi).mono fun a j hj => hk a j hj

theorem miss : Tame b (throw .miss : Read α) := fun _ _ => throw_iff.mpr rfl

theorem need (o : Option α) : Tame b (need o) := by
  cases o with
  | none => exact miss
  | some a => exact Tame.pure a

theorem ret (hx : Tame b x) (f : α → γ) : Tame b (x >>= fun a => pure (f a)) :=
  hx.bind fun a => Tame.pure (f a)

theorem getBytes_ensures (n : ℕ) :
    Ensures (· = .miss) (getBytes b n) (fun bs j => bs.length = n ∧ j ≤ b.length) i := by
  rw [getBytes]
  simp only [bind_iff, get_iff, need_ensures, set_iff, plus_ensures, pure_iff, checkedAdd]
  by_cases hfit : i + n < SIZES
  · simp only [if_pos hfit]
    cases hslice : slice b i (i + n) with
    | none => trivial
    | some bs =>
      have hspans := spans_of_slice hslice
      have hlen := hspans.eq_add
      exact ⟨by omega, hspans.le_length⟩
  · simp only [if_neg hfit]

theorem getBytes (n : ℕ) : Tame b (getBytes b n) :=
  fun _ _ => (getBytes_ensures n).mono fun _ _ h => h.2

theorem getByte : Tame b (getByte b) := by
  intro i _
  rw [Journal.getByte, bind_iff]
  apply (getBytes_ensures 1).mono
  rintro bs j ⟨hlen, hj⟩
  obtain ⟨x, rfl⟩ := length_eq_one_iff.mp hlen
  exact pure_iff.mpr hj

theorem getU64 : Tame b (getU64 b) := (getBytes 8).ret _

theorem getU128 : Tame b (getU128 b) := (getBytes 16).ret _

theorem getEnd : Tame b (getEnd b) := by
  refine getByte.bind fun tag => ?_
  split
  · exact getByte.ret _
  · exact Tame.pure _
  · exact Tame.pure _
  · exact Tame.pure _
  · exact Tame.pure _
  · exact miss

variable (hb : b.length < SIZES)
include hb

theorem getUleb : Tame b (getUleb b) := by
  intro i hi
  apply (getUleb_ensures hi hb).mono
  rintro v j ⟨bs, hspans, -⟩
  exact hspans.le_length

theorem getText : Tame b (getText b) :=
  (getUleb hb).bind fun len => (getBytes len.toNat).bind fun _ => need _

theorem getHandlesFrom (n : ℕ) : Tame b (getHandlesFrom b n) := by
  induction n with
  | zero => exact Tame.pure _
  | succ n ih => exact (getUleb hb).bind fun v => (need (u32Of v)).bind fun _ => ih.ret _

theorem getHandles : Tame b (getHandles b) := (getUleb hb).bind fun n => getHandlesFrom hb n.toNat

theorem getValue (tag : UInt8) : Tame b (getValue b tag) := by
  rw [Journal.getValue]
  split
  · exact Tame.pure _
  · exact (getUleb hb).ret _
  · exact getU64.ret _
  · exact (getUleb hb).bind fun _ => (getUleb hb).ret _

theorem getResult (tag : UInt8) : Tame b (getResult b tag) := by
  rw [Journal.getResult]
  split
  · exact Tame.pure _
  · exact (getUleb hb).bind fun len => (getBytes len.toNat).ret _
  · exact miss

theorem getReply : Tame b (getReply b) :=
  getByte.bind fun tag => (getValue hb tag).bind fun _ => (getResult hb tag).ret _

theorem getRequest : Tame b (getRequest b) := by
  refine (getUleb hb).bind fun len => ?_
  split
  · exact (getBytes len.toNat).ret _
  · exact getU64.ret _

theorem nameMethod (methods : Methods) (method : UInt64) : Tame b (nameMethod b methods method) := by
  rw [Journal.nameMethod]
  split
  · exact (getText hb).bind fun _ => (getText hb).ret _
  · exact Tame.pure _

theorem getCall (methods : Methods) : Tame b (getCall methods b) :=
  (getUleb hb).bind fun method => (nameMethod hb methods method).bind fun _ =>
    (need _).bind fun _ => (getRequest hb).bind fun _ => (getReply hb).ret _

theorem getEvent (methods : Methods) (kind : RowKind) : Tame b (getEvent methods b kind) := by
  cases kind with
  | header => exact (getUleb hb).bind fun _ => getU128.ret _
  | input => exact (getUleb hb).bind fun v => (need (u32Of v)).bind fun _ =>
      getU128.bind fun _ => getU128.ret _
  | call => exact getCall hb methods
  | finish => exact (getUleb hb).bind fun v => (need (u32Of v)).bind fun _ => (getReply hb).ret _
  | wake => exact (getUleb hb).bind fun _ => (getHandles hb).ret _
  | block => exact (getHandles hb).ret _
  | abort => exact (getUleb hb).bind fun v => (need (u32Of v)).ret _
  | cancel => exact (getUleb hb).ret _
  | «end» => exact getEnd.ret _

end Tame

theorem decodeRow_returns (hrow : row.payload.length < SIZES) (methods : Methods) :
    decodeRow row methods = .error .miss ∨ ∃ r, decodeRow row methods = .ok r := by
  have hspec := Tame.getEvent hrow methods row.kind 0 (Nat.zero_le _)
  unfold Ensures at hspec
  rw [decodeRow]
  cases hrun : (getEvent methods row.payload row.kind).run 0 with
  | error halt =>
    rw [hrun] at hspec
    exact Or.inl (congrArg _ hspec)
  | ok p =>
    show (if p.2 = row.payload.length then _ else _ : Except Halt (Event × Methods)) = _ ∨
      ∃ r, (if p.2 = row.payload.length then _ else _ : Except Halt (Event × Methods)) = _
    split
    · exact Or.inr ⟨p.1, rfl⟩
    · exact Or.inl rfl

theorem decode_returns (hrows : ∀ row ∈ rows, row.payload.length < SIZES) (methods : Methods) :
    ∃ r, decodeFrom rows methods = .ok r := by
  induction rows generalizing methods with
  | nil => exact ⟨_, rfl⟩
  | cons row rows ih =>
    have hrest : ∀ row ∈ rows, row.payload.length < SIZES :=
      fun row h => hrows row (mem_cons_of_mem _ h)
    rw [decodeFrom]
    rcases decodeRow_returns (hrows row mem_cons_self) methods with hmiss | ⟨r, hr⟩
    · rw [hmiss]
      exact ⟨_, rfl⟩
    · obtain ⟨events, hevents⟩ := ih hrest r.2
      rw [hr]
      show ∃ x, (decodeFrom rows r.2 >>= _) = Except.ok x
      rw [hevents]
      exact ⟨_, rfl⟩

/-- **Torn journals.** That the journal of the rows can be cut anywhere and resumed, that `read`
returns for `b`, and `decode` for any rows: this holds just when the rows count their event indexes
up from 0 and no row of `b` after whole ones claims a payload past the last `usize`. -/
theorem torn_iff (rows : List Row) (b : Bytes) (hfits : (journal rows).length < SLICES)
    (hb : b.length < SLICES) :
    (TornSafe rows ∧ (∃ r, read b = .ok r) ∧
      ∀ damaged : List Row, (∀ row ∈ damaged, row.payload.length < SLICES) →
        ∃ r, decode damaged = .ok r) ↔
    Numbered 0 rows ∧ ¬Overflows b 0 0 := by
  rw [tornSafe_iff hfits, read_returns_iff hb]
  constructor
  · rintro ⟨hnum, hno, -⟩
    exact ⟨hnum, hno⟩
  · rintro ⟨hnum, hno⟩
    refine ⟨hnum, hno, fun damaged hdamaged => ?_⟩
    exact decode_returns (fun row h => lt_trans (hdamaged row h) (by decide)) []

/-- A journal of one row, and a torn one of its first bytes. -/
theorem torn_iff_header :
    (TornSafe [⟨.header, 0, [1]⟩] ∧ (∃ r, read [0, 0, 1] = .ok r) ∧
      ∀ damaged : List Row, (∀ row ∈ damaged, row.payload.length < SLICES) →
        ∃ r, decode damaged = .ok r) ↔
    Numbered 0 [⟨.header, 0, [1]⟩] ∧ ¬Overflows [0, 0, 1] 0 0 :=
  torn_iff [⟨.header, 0, [1]⟩] [0, 0, 1] (by
    rw [journal_cons, List.length_append, append, length_appendParts]
    decide) (by decide)

/-- A row of kind 0 and index 0 that claims `u64::MAX` bytes. -/
theorem read_panics :
    ¬∀ b : Bytes, b.length < SLICES → ∃ r, read b = .ok r := by
  intro h
  obtain ⟨r, hr⟩ := h [0, 0, 255, 255, 255, 255, 255, 255, 255, 255, 255, 1] (by decide)
  have hrun : read [0, 0, 255, 255, 255, 255, 255, 255, 255, 255, 255, 1] = .error .overflow := by
    decide +kernel
  rw [hrun] at hr
  exact absurd hr (by simp)

end HdLang.Journal
