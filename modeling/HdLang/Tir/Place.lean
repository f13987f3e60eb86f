import HdLang.Lib.Text
import Mathlib.Data.BitVec
import Mathlib.Data.Nat.Bitwise

/-!
# Places

A place is a root and the steps from it. It is one data word: a bare local, or the offset of a
record in the column `extra`: a length, the root's words, then the words of each step. Three readers
know the records: `decodePlace`, the walk of the operand slots (`placeWords`), and, for the text
form, `parsePlace`.

The first two agree with `Place.words` while the record lies where a word reaches it
(`Stands.decode`, `Stands.slots`); the text form reads back but for the dereferences moved in front
of `ptr` (`parse_display_iff`); and a record decodes to a place with the same words unless it is the
record of a bare local (`words_of_decode`).
-/

namespace HdLang.Tir

open Text List Option Nat

/-! ### The encoding -/

/-- A word of a body's columns. -/
abbrev Word := BitVec 32

/-- `u32` counts below this. -/
abbrev U32 : ℕ := 2 ^ 32

/-- A data word with nothing. -/
def NONE : Word := BitVec.allOnes 32

/-- The place word is a bare local, not a record offset. -/
def BARE_LOCAL : Word := 0x80000000

/-- Root word: a local. -/
def ROOT_LOCAL : Word := 0

/-- Root words: a top-level binding, then its type. -/
def ROOT_GLOBAL : Word := 1

/-- Root word: an instruction's value or a constant. -/
def ROOT_VALUE : Word := 2

/-- Root word: a frame slot. -/
def ROOT_FRAME : Word := 3

/-- Root word: a pointer value. -/
def ROOT_PTR : Word := 4

/-- A projection word's kind, its top two bits. -/
def PROJ_KIND : Word := 0xC0000000

/-- A projection word's payload, bits 0 to 29. -/
def PROJ_INDEX : Word := 0x3FFFFFFF

/-- A struct field or tuple element. -/
def PROJ_FIELD : Word := 0

/-- A dereference; no payload. -/
def PROJ_DEREF : Word := 0x40000000

/-- A list element; the next word is the index. -/
def PROJ_ELEM : Word := 0x80000000

/-- An enum variant's payload. -/
def PROJ_VARIANT : Word := 0xC0000000

def CONST_BIT : Word := 0x80000000

/-- An instruction's value, or a constant where `CONST_BIT` is set. -/
abbrev Ref := Word

/-- Row `index` of the constants. -/
def Ref.konst (index : Word) : Ref := index ||| CONST_BIT

/-- The instruction of a value that is none of the constants. -/
def Ref.asInst (r : Ref) : Option Word := if r &&& CONST_BIT = 0 then some r else none

/-- Where a place starts. -/
inductive PlaceRoot where
  /-- A parameter, binding or hidden local of the body. -/
  | localVar (l : Word)
  /-- A top-level binding and its type. -/
  | global (d t : Word)
  /-- An instruction's value or a constant. -/
  | value (r : Ref)
  /-- A slot of the function's frame. -/
  | frame (s : Word)
  /-- The value a pointer value addresses. -/
  | ptr (r : Ref)
  deriving DecidableEq, Repr

/-- One step of a place, read left to right. -/
inductive Proj where
  /-- A struct field or tuple element, by declaration index. -/
  | field (k : Word)
  /-- The place a reference value refers to. -/
  | deref
  /-- A slot of a list's buffer at an index value. -/
  | elem (r : Ref)
  /-- The payload of an enum value known to be that variant. -/
  | variant (k : Word)
  deriving DecidableEq, Repr

/-- A place: a root and its projections. -/
structure Place where
  root : PlaceRoot
  proj : List Proj
  deriving DecidableEq, Repr

/-- The words of a root: its kind, then what it names. -/
def PlaceRoot.words : PlaceRoot → List Word
  | .localVar l => [ROOT_LOCAL, l]
  | .global d t => [ROOT_GLOBAL, d, t]
  | .value r => [ROOT_VALUE, r]
  | .frame s => [ROOT_FRAME, s]
  | .ptr r => [ROOT_PTR, r]

/-- The words of a step. -/
def Proj.words : Proj → List Word
  | .field k => [PROJ_FIELD ||| (k &&& PROJ_INDEX)]
  | .deref => [PROJ_DEREF]
  | .elem r => [PROJ_ELEM, r]
  | .variant k => [PROJ_VARIANT ||| (k &&& PROJ_INDEX)]

namespace Place

/-- A bare local. -/
def bare (l : Word) : Place := ⟨.localVar l, []⟩

/-- The place record's words after its length word; `none` for a bare local, which has no record. -/
def words (p : Place) : Option (List Word) :=
  match p.root, p.proj with
  | .localVar _, [] => none
  | root, proj => some (root.words ++ proj.flatMap Proj.words)

/-- The value a step reads. -/
def stepValue : Proj → Option Word
  | .elem r => some r
  | _ => none

/-- The values the place reads, in evaluation order: a value root, then each element index. -/
def values (p : Place) : List Word :=
  let root := match p.root with
    | .value r => some r
    | .ptr r => some r
    | _ => none
  root.toList ++ p.proj.filterMap stepValue

end Place

/-! ### Decoding -/

/-- The root that a record starts with, and the words behind it. -/
def decodeRoot : List Word → Option (PlaceRoot × List Word)
  | kind :: x :: rest =>
    if kind = ROOT_LOCAL then some (.localVar x, rest)
    else if kind = ROOT_GLOBAL then
      match rest with
      | t :: rest => some (.global x t, rest)
      | [] => none
    else if kind = ROOT_VALUE then some (.value x, rest)
    else if kind = ROOT_FRAME then some (.frame x, rest)
    else if kind = ROOT_PTR then some (.ptr x, rest)
    else none
  | _ => none

/-- The steps that words stand for. -/
def decodeSteps : List Word → Option (List Proj)
  | [] => some []
  | w :: rest =>
    if w &&& PROJ_KIND = PROJ_FIELD then
      (decodeSteps rest).map (.field (w &&& PROJ_INDEX) :: ·)
    else if w &&& PROJ_KIND = PROJ_DEREF ∧ w &&& PROJ_INDEX = 0 then
      (decodeSteps rest).map (.deref :: ·)
    else if w &&& PROJ_KIND = PROJ_ELEM ∧ w &&& PROJ_INDEX = 0 then
      match rest with
      | index :: rest => (decodeSteps rest).map (.elem index :: ·)
      | [] => none
    else if w &&& PROJ_KIND = PROJ_VARIANT then
      (decodeSteps rest).map (.variant (w &&& PROJ_INDEX) :: ·)
    else none

/-- The record at an offset of the column: as many words as the word there says. -/
def record (extra : List Word) (at_ : ℕ) : Option (List Word) := do
  let n ← extra[at_]?
  if at_ + 1 + n.toNat ≤ extra.length then some ((extra.drop (at_ + 1)).take n.toNat) else none

/-- Decodes a place word; `none` when it is malformed. -/
def decodePlace (extra : List Word) (word : Word) : Option Place :=
  if word &&& BARE_LOCAL ≠ 0 then some (.bare (word &&& ~~~BARE_LOCAL))
  else do
    let rec_ ← record extra word.toNat
    let (root, rest) ← decodeRoot rec_
    let proj ← decodeSteps rest
    some ⟨root, proj⟩

/-! ### The operand slots of a place -/

/-- A word of the column, 0 behind its end. -/
def wordAt (extra : List Word) (x : ℕ) : Word := extra[x]?.getD 0

/-- The element indices from position `x` on, with their positions; `none` when a position leaves
`u32`. -/
def walkSteps (extra : List Word) (stop x : ℕ) : Option (List (Word × ℕ)) :=
  if x < stop then
    if wordAt extra x &&& PROJ_KIND = PROJ_ELEM then
      if x + 2 < U32 then
        (walkSteps extra stop (x + 2)).map ((wordAt extra (x + 1), x + 1) :: ·)
      else none
    else if x + 1 < U32 then walkSteps extra stop (x + 1)
    else none
  else some []
termination_by stop - x

/-- The value words of the place record at an offset: a value or pointer root, then each element
index, with their positions. -/
def placeWords (extra : List Word) (at_ : ℕ) : Option (List (Word × ℕ)) :=
  match extra[at_]? with
  | none => some []
  | some n =>
    let first := at_ + 1
    let stop := first + n.toNat
    let kind := wordAt extra first
    if stop < U32 then
      if kind = ROOT_VALUE ∨ kind = ROOT_PTR then
        if first + 2 < U32 then
          (walkSteps extra stop (first + 2)).map ((wordAt extra (first + 1), first + 1) :: ·)
        else none
      else
        let next := first + if kind = ROOT_GLOBAL then 3 else 2
        if next < U32 then walkSteps extra stop next else none
    else none

/-- The slots of a place operand. -/
def placeSlots (extra : List Word) (word : Word) : Option (List (Word × ℕ)) :=
  if word = NONE then some []
  else if word &&& BARE_LOCAL = 0 then placeWords extra word.toNat
  else some []

/-! ### The text form -/

/-- A number's digits. -/
def digits (w : Word) : List Char := Nat.toDigits 10 w.toNat

/-- A value: an instruction's number, or the row of a constant. -/
def valueText (r : Ref) : List Char :=
  match r.asInst with
  | some i => '%' :: digits i
  | none => '%' :: 'c' :: digits (r &&& ~~~CONST_BIT)

/-- A root's text. -/
def PlaceRoot.text : PlaceRoot → List Char
  | .localVar l => '$' :: digits l
  | .global d t => '@' :: digits d ++ ':' :: digits t
  | .value r => valueText r
  | .frame s => '^' :: digits s
  | .ptr r => ['p', 't', 'r', ' '] ++ valueText r

/-- A step's text, behind the root. -/
def Proj.text : Proj → List Char
  | .field k => [' ', '.'] ++ digits k
  | .deref => [' ', '*']
  | .elem r => [' ', '['] ++ valueText r ++ [']']
  | .variant k => [' ', 'a', 's', ' ', '.'] ++ digits k

namespace Place

/-- The number of dereferences right after the root. -/
def lead (p : Place) : ℕ := (p.proj.takeWhile (· = .deref)).length

/-- The text form: dereferences right after the root are written before it. -/
def display (p : Place) : List Char :=
  '[' :: List.replicate p.lead '*' ++ p.root.text ++ (p.proj.drop p.lead).flatMap Proj.text ++ [']']

end Place

/-- `t.strip_suffix(c)`. -/
def stripSuffix (c : Char) (t : List Char) : Option (List Char) :=
  if t.getLast? = some c then some t.dropLast else none

/-- `t.strip_prefix(c)`. -/
def stripPrefix (c : Char) : List Char → Option (List Char)
  | x :: t => if x = c then some t else none
  | [] => none

/-- A number: `parse::<u32>()`. -/
def num (t : List Char) : Option Word := (parseUnsigned U32 t).map (BitVec.ofNat 32)

/-- A value: `%cK` or `%N`. -/
def parseValue : List Char → Option Ref
  | '%' :: 'c' :: k => (num k).map Ref.konst
  | '%' :: i => num i
  | _ => none

/-- A root: its first character says which. -/
def parseRoot (ptr : Bool) (text : List Char) : Option PlaceRoot :=
  match text with
  | '$' :: l => (num l).map .localVar
  | '@' :: rest => do
    let (d, t) ← splitOnceChars ':' rest
    let def_ ← num d
    let ty ← num t
    some (.global def_ ty)
  | '%' :: _ => if ptr then (parseValue text).map .ptr else (parseValue text).map .value
  | '^' :: s => (num s).map .frame
  | _ => none

/-- Whether a root is a pointer's. -/
def PlaceRoot.isPtr : PlaceRoot → Bool
  | .ptr _ => true
  | _ => false

/-- The steps behind the root. -/
def parseSteps : List (List Char) → Option (List Proj)
  | [] => some []
  | t :: toks =>
    if t = ['*'] then (parseSteps toks).map (.deref :: ·)
    else if t = ['a', 's'] then
      match toks with
      | k :: toks => do
        let digits ← stripPrefix '.' k
        let k ← num digits
        (parseSteps toks).map (.variant k :: ·)
      | [] => none
    else match stripPrefix '.' t with
      | some k => do
        let k ← num k
        (parseSteps toks).map (.field k :: ·)
      | none => do
        let v ← stripPrefix '[' t
        let v ← stripSuffix ']' v
        let r ← parseValue v
        (parseSteps toks).map (.elem r :: ·)

/-- A place from the word of its root, with the stars before it, and the words of its steps. -/
def parseFrom (ptr : Bool) (first : List Char) (toks : List (List Char)) : Option Place := do
  let rootText := first.dropWhile (· = '*')
  let root ← parseRoot ptr rootText
  if ptr && !root.isPtr then none
  else do
    let proj ← parseSteps toks
    some ⟨root, List.replicate (first.length - rootText.length) .deref ++ proj⟩

/-- A place from its words: the first is the root, but for `ptr`, whose root is the second. -/
def parseTokens : List (List Char) → Option Place
  | [] => none
  | first :: toks =>
    if first = ['p', 't', 'r'] then
      match toks with
      | [] => none
      | first :: toks => parseFrom true first toks
    else parseFrom false first toks

/-- Parses the text form; every failure has the one message of `bad`. -/
def parsePlace (s : List Char) : Except (List Char) Place :=
  let bad := "bad place ".toList ++ [Char.ofNat 0x60] ++ s ++ [Char.ofNat 0x60]
  match (stripPrefix '[' s).bind (stripSuffix ']') with
  | none => .error bad
  | some inner =>
    match parseTokens (splitWhitespace inner) with
    | none => .error bad
    | some p => .ok p

/-! ### The words of a record -/

section Steps

theorem kind_or_index (k a : Word) (ha : a &&& PROJ_KIND = a) :
    (a ||| (k &&& PROJ_INDEX)) &&& PROJ_KIND = a := by
  have hdisjoint : PROJ_INDEX &&& PROJ_KIND = 0 := by decide
  rw [BitVec.and_or_distrib_right, BitVec.and_assoc, hdisjoint, ha]
  simp

theorem index_or_index (k a : Word) (ha : a &&& PROJ_INDEX = 0) :
    (a ||| (k &&& PROJ_INDEX)) &&& PROJ_INDEX = k &&& PROJ_INDEX := by
  rw [BitVec.and_or_distrib_right, BitVec.and_assoc, BitVec.and_self, ha]
  simp

theorem kind_or_payload (w : Word) : (w &&& PROJ_KIND) ||| (w &&& PROJ_INDEX) = w := by
  rw [← BitVec.and_or_distrib_left, show PROJ_KIND ||| PROJ_INDEX = BitVec.allOnes 32 by decide,
    BitVec.and_allOnes]

theorem index_and {k : Word} (hk : k.toNat < 2 ^ 30) : k &&& PROJ_INDEX = k := by
  apply BitVec.eq_of_toNat_eq
  rw [BitVec.toNat_and, show PROJ_INDEX.toNat = 2 ^ 30 - 1 by decide, and_two_pow_sub_one_eq_mod,
    mod_eq_of_lt hk]

/-- A step whose index fits in the payload. -/
def Proj.Fits : Proj → Prop
  | .field k => k.toNat < 2 ^ 30
  | .variant k => k.toNat < 2 ^ 30
  | _ => True

@[simp] theorem Proj.words_field (k : Word) :
    (Proj.field k).words = [PROJ_FIELD ||| (k &&& PROJ_INDEX)] := rfl

@[simp] theorem Proj.words_deref : Proj.deref.words = [PROJ_DEREF] := rfl

@[simp] theorem Proj.words_elem (r : Ref) : (Proj.elem r).words = [PROJ_ELEM, r] := rfl

@[simp] theorem Proj.words_variant (k : Word) :
    (Proj.variant k).words = [PROJ_VARIANT ||| (k &&& PROJ_INDEX)] := rfl

theorem decodeSteps_cons (w : Word) (rest : List Word) :
    decodeSteps (w :: rest) =
      if w &&& PROJ_KIND = PROJ_FIELD then
        (decodeSteps rest).map (.field (w &&& PROJ_INDEX) :: ·)
      else if w &&& PROJ_KIND = PROJ_DEREF ∧ w &&& PROJ_INDEX = 0 then
        (decodeSteps rest).map (.deref :: ·)
      else if w &&& PROJ_KIND = PROJ_ELEM ∧ w &&& PROJ_INDEX = 0 then
        match rest with
        | index :: rest => (decodeSteps rest).map (.elem index :: ·)
        | [] => none
      else if w &&& PROJ_KIND = PROJ_VARIANT then
        (decodeSteps rest).map (.variant (w &&& PROJ_INDEX) :: ·)
      else none := by
  rw [decodeSteps.eq_def]

theorem decodeSteps_step {step : Proj} (h : step.Fits) (rest : List Word) :
    decodeSteps (step.words ++ rest) = (decodeSteps rest).map (step :: ·) := by
  cases step with
  | field k =>
    rw [Proj.words_field, singleton_append, decodeSteps_cons,
      if_pos (kind_or_index k PROJ_FIELD (by decide)), index_or_index k PROJ_FIELD (by decide),
      index_and h]
  | deref =>
    rw [Proj.words_deref, singleton_append, decodeSteps_cons, if_neg (by decide),
      if_pos (by decide)]
  | elem r =>
    rw [Proj.words_elem, cons_append, singleton_append, decodeSteps_cons, if_neg (by decide),
      if_neg (by decide), if_pos (by decide)]
  | variant k =>
    have hkind := kind_or_index k PROJ_VARIANT (by decide)
    rw [Proj.words_variant, singleton_append, decodeSteps_cons, if_neg (by rw [hkind]; decide),
      if_neg fun h => absurd (hkind.symm.trans h.1) (by decide),
      if_neg fun h => absurd (hkind.symm.trans h.1) (by decide), if_pos hkind,
      index_or_index k PROJ_VARIANT (by decide), index_and h]

theorem decodeSteps_words {proj : List Proj} (h : ∀ step ∈ proj, step.Fits) :
    decodeSteps (proj.flatMap Proj.words) = some proj := by
  induction proj with
  | nil => rfl
  | cons step proj ih =>
    rw [flatMap_cons, decodeSteps_step (h step mem_cons_self),
      ih fun s hs => h s (mem_cons_of_mem _ hs), map_some]

/-- Words that decode to steps are the words of the steps. -/
theorem words_of_decodeSteps {ws : List Word} {proj : List Proj} (h : decodeSteps ws = some proj) :
    proj.flatMap Proj.words = ws := by
  induction ws using decodeSteps.induct generalizing proj with
  | case1 => 
    cases h
    rfl
  | case2 w rest hfield ih =>
    rw [decodeSteps_cons, if_pos hfield] at h
    obtain ⟨steps, hsteps, rfl⟩ := map_eq_some_iff.mp h
    rw [flatMap_cons, ih hsteps, Proj.words_field, BitVec.and_assoc, BitVec.and_self, ← hfield,
      kind_or_payload, singleton_append]
  | case3 w rest hfield hderef ih =>
    rw [decodeSteps_cons, if_neg hfield, if_pos hderef] at h
    obtain ⟨steps, hsteps, rfl⟩ := map_eq_some_iff.mp h
    have hw : PROJ_DEREF = w := by
      refine Eq.trans ?_ (kind_or_payload w)
      rw [hderef.1, hderef.2]
      rfl
    rw [flatMap_cons, ih hsteps, Proj.words_deref, hw, singleton_append]
  | case4 w hfield hderef helem index rest ih =>
    rw [decodeSteps_cons, if_neg hfield, if_neg hderef, if_pos helem] at h
    obtain ⟨steps, hsteps, rfl⟩ := map_eq_some_iff.mp h
    have hw : PROJ_ELEM = w := by
      refine Eq.trans ?_ (kind_or_payload w)
      rw [helem.1, helem.2]
      rfl
    rw [flatMap_cons, ih hsteps, Proj.words_elem, hw, cons_append, singleton_append]
  | case5 w hfield hderef helem =>
    rw [decodeSteps_cons, if_neg hfield, if_neg hderef, if_pos helem] at h
    cases h
  | case6 w rest hfield hderef helem hvariant ih =>
    rw [decodeSteps_cons, if_neg hfield, if_neg hderef, if_neg helem, if_pos hvariant] at h
    obtain ⟨steps, hsteps, rfl⟩ := map_eq_some_iff.mp h
    rw [flatMap_cons, ih hsteps, Proj.words_variant, BitVec.and_assoc, BitVec.and_self, ← hvariant,
      kind_or_payload, singleton_append]
  | case7 w rest hfield hderef helem hvariant =>
    rw [decodeSteps_cons, if_neg hfield, if_neg hderef, if_neg helem, if_neg hvariant] at h
    cases h

theorem decodeRoot_words (root : PlaceRoot) (rest : List Word) :
    decodeRoot (root.words ++ rest) = some (root, rest) := by
  cases root <;> rfl

/-- Words that decode to a root are the words of the root. -/
theorem words_of_decodeRoot {ws rest : List Word} {root : PlaceRoot}
    (h : decodeRoot ws = some (root, rest)) : root.words ++ rest = ws := by
  cases ws with
  | nil => cases h
  | cons kind ws =>
    cases ws with
    | nil => cases h
    | cons x ws =>
      simp only [decodeRoot] at h
      split at h
      · next hkind =>
        cases h
        rw [hkind]
        rfl
      · split at h
        · next hkind =>
          cases ws with
          | nil => cases h
          | cons t ws =>
            cases h
            rw [hkind]
            rfl
        · split at h
          · next hkind =>
            cases h
            rw [hkind]
            rfl
          · split at h
            · next hkind =>
              cases h
              rw [hkind]
              rfl
            · split at h
              · next hkind =>
                cases h
                rw [hkind]
                rfl
              · cases h

end Steps

/-! ### Records -/

theorem and_high (w : Word) : w &&& BARE_LOCAL = if w.toNat < 2 ^ 31 then 0 else BARE_LOCAL := by
  have hlt := w.isLt
  apply BitVec.eq_of_toNat_eq
  rw [BitVec.toNat_and, show BARE_LOCAL.toNat = 2 ^ 31 by decide, and_two_pow,
    testBit_eq_decide_div_mod_eq]
  split
  · next h =>
    rw [div_eq_of_lt h]
    rfl
  · next h =>
    rw [show w.toNat / 2 ^ 31 = 1 by omega]
    rfl

theorem and_high_eq_zero {w : Word} : w &&& BARE_LOCAL = 0 ↔ w.toNat < 2 ^ 31 := by
  rw [and_high]
  split
  · next h => exact iff_of_true rfl h
  · next h => exact iff_of_false (by decide) h

variable {extra : List Word}

/-- A record of a column lies between what is before it and behind it. -/
theorem of_record {ws : List Word} {at_ : ℕ} (h : record extra at_ = some ws) :
    ∃ front n back, extra = front ++ n :: (ws ++ back) ∧ front.length = at_ ∧
      n.toNat = ws.length := by
  rw [record] at h
  have h : (extra[at_]?).bind (fun n => if at_ + 1 + n.toNat ≤ extra.length then
      some ((extra.drop (at_ + 1)).take n.toNat) else none) = some ws := h
  obtain ⟨n, hn, h⟩ := bind_eq_some_iff.mp h
  split at h
  · next hle =>
    have hws := some.inj h
    obtain ⟨hat, hget⟩ := List.getElem?_eq_some_iff.mp hn
    have hlen : n.toNat = ws.length := by
      rw [← hws, length_take, length_drop]
      omega
    refine ⟨extra.take at_, n, (extra.drop (at_ + 1)).drop n.toNat, ?_, ?_, hlen⟩
    · rw [← hws, take_append_drop, ← hget, cons_getElem_drop_succ, take_append_drop]
    · rw [length_take]
      omega
  · cases h

namespace Place

variable {p : Place} {ws : List Word}

theorem words_eq (h : p.words = some ws) : ws = p.root.words ++ p.proj.flatMap Proj.words := by
  unfold words at h
  split at h
  · cases h
  · exact (some.inj h).symm

/-- Words are those of a place unless they are a bare local's. -/
theorem words_of_ne (root : PlaceRoot) (proj : List Proj)
    (h : ∀ l, root.words ++ proj.flatMap Proj.words ≠ [ROOT_LOCAL, l]) :
    words ⟨root, proj⟩ = some (root.words ++ proj.flatMap Proj.words) := by
  cases root with
  | localVar l =>
    cases proj with
    | nil => exact absurd rfl (h l)
    | cons step proj => rfl
  | _ => rfl

end Place

variable {word : Word}

theorem decodePlace_record {ws : List Word} {p : Place}
    (hrecord : record extra word.toNat = some ws) (hwords : p.words = some ws)
    (hfits : ∀ step ∈ p.proj, step.Fits) (hlow : word.toNat < 2 ^ 31) :
    decodePlace extra word = some p := by
  rw [decodePlace, if_neg (not_not.mpr (and_high_eq_zero.mpr hlow)), hrecord, p.words_eq hwords]
  show (decodeRoot _).bind _ = _
  rw [decodeRoot_words, bind_some]
  show (decodeSteps _).bind _ = _
  rw [decodeSteps_words hfits, bind_some]

/-- The words of a record that decodes to a place are the place's, but for the record of a bare
local. -/
theorem words_of_decodePlace {ws : List Word} {p : Place}
    (hrecord : record extra word.toNat = some ws) (hlow : word.toNat < 2 ^ 31)
    (h : decodePlace extra word = some p) : p.words = some ws ↔ ∀ l, ws ≠ [ROOT_LOCAL, l] := by
  rw [decodePlace, if_neg (not_not.mpr (and_high_eq_zero.mpr hlow)), hrecord] at h
  have h : (decodeRoot ws).bind (fun r =>
      (decodeSteps r.2).bind fun proj => some ⟨r.1, proj⟩) = some p := h
  obtain ⟨⟨root, rest⟩, hroot, h⟩ := bind_eq_some_iff.mp h
  obtain ⟨proj, hproj, h⟩ := bind_eq_some_iff.mp h
  cases h
  have hws : root.words ++ proj.flatMap Proj.words = ws := by
    rw [words_of_decodeSteps hproj, words_of_decodeRoot hroot]
  constructor
  · intro hwords l hl
    have hbare : decodeRoot ws = some (.localVar l, []) := by
      rw [hl]
      rfl
    cases hbare.symm.trans hroot
    cases hproj
    cases hwords
  · intro hne
    rw [← hws] at hne ⊢
    exact Place.words_of_ne root proj hne

/-! ### The walk of the slots -/

theorem wordAt_append (front back : List Word) (w : Word) :
    wordAt (front ++ w :: back) front.length = w := by
  rw [wordAt, getElem?_append_right le_rfl, Nat.sub_self]
  rfl

/-- The walk takes one step's words and reports its index. -/
theorem walkSteps_step (step : Proj) (front rest : List Word) {stop : ℕ}
    (hstop : front.length + step.words.length ≤ stop) (hlt : stop < U32) :
    (walkSteps (front ++ (step.words ++ rest)) stop front.length).map (List.map Prod.fst) =
      ((walkSteps (front ++ (step.words ++ rest)) stop (front.length + step.words.length)).map
        (List.map Prod.fst)).map ((Place.stepValue step).toList ++ ·) := by
  have hone : ∀ w : Word, step.words = [w] → w &&& PROJ_KIND ≠ PROJ_ELEM →
      walkSteps (front ++ (step.words ++ rest)) stop front.length =
        walkSteps (front ++ (step.words ++ rest)) stop (front.length + step.words.length) := by
    intro w hw hkind
    rw [hw, length_singleton] at hstop
    rw [hw, singleton_append, walkSteps, if_pos (by omega), wordAt_append, if_neg hkind,
      if_pos (by omega), length_singleton]
  have hnone : ∀ reported : Option (List Word), reported = reported.map ([] ++ ·) := by
    intro reported
    cases reported <;> rfl
  cases step with
  | field k =>
    rw [hone _ rfl (by rw [kind_or_index k _ (by decide)]; decide)]
    exact hnone _
  | deref =>
    rw [hone _ rfl (by decide)]
    exact hnone _
  | variant k =>
    rw [hone _ rfl (by rw [kind_or_index k _ (by decide)]; decide)]
    exact hnone _
  | elem r =>
    have hindex : wordAt (front ++ ([PROJ_ELEM, r] ++ rest)) (front.length + 1) = r := by
      have hcolumn : front ++ ([PROJ_ELEM, r] ++ rest) = (front ++ [PROJ_ELEM]) ++ r :: rest := by
        simp
      have hlen : front.length + 1 = (front ++ [PROJ_ELEM]).length := by simp
      rw [hcolumn, hlen, wordAt_append]
    have hkind : wordAt (front ++ ([PROJ_ELEM, r] ++ rest)) front.length = PROJ_ELEM :=
      wordAt_append front (r :: rest) PROJ_ELEM
    have hlen : (Proj.elem r).words.length = 2 := rfl
    rw [hlen] at hstop ⊢
    rw [Proj.words_elem, walkSteps, if_pos (by omega), hkind, if_pos (by decide), if_pos (by omega),
      hindex, Option.map_map, Option.map_map]
    rfl

/-- The walk over the words of steps reports their indices. -/
theorem walkSteps_words (proj : List Proj) (front back : List Word) {stop : ℕ}
    (hstop : stop = front.length + (proj.flatMap Proj.words).length) (hlt : stop < U32) :
    (walkSteps (front ++ (proj.flatMap Proj.words ++ back)) stop front.length).map
      (List.map Prod.fst) = some (proj.filterMap Place.stepValue) := by
  induction proj generalizing front with
  | nil =>
    rw [walkSteps, if_neg (by simp [hstop])]
    rfl
  | cons step proj ih =>
    rw [flatMap_cons, length_append] at hstop
    have hrest := ih (front ++ step.words) (by rw [length_append]; omega)
    rw [append_assoc, length_append] at hrest
    rw [flatMap_cons, append_assoc, walkSteps_step step front _ (by omega) hlt, hrest, map_some]
    cases step <;> rfl

theorem wordAt_add (front back : List Word) (k : ℕ) :
    wordAt (front ++ back) (front.length + k) = back[k]?.getD 0 := by
  rw [wordAt, getElem?_append_right (Nat.le_add_right _ _), Nat.add_sub_cancel_left]

/-- **The slots of a record**: the values of the place, unless its end leaves `u32`. -/
theorem placeWords_record {ws : List Word} {p : Place} {at_ : ℕ}
    (hrecord : record extra at_ = some ws) (hwords : p.words = some ws) :
    (placeWords extra at_).map (List.map Prod.fst) =
      if at_ + 1 + ws.length < U32 then some p.values else none := by
  obtain ⟨front, n, back, rfl, rfl, hlen⟩ := of_record hrecord
  have hn : (front ++ n :: (ws ++ back))[front.length]? = some n := by simp
  simp only [placeWords, hn, hlen]
  by_cases hlt : front.length + 1 + ws.length < U32
  · rw [if_pos hlt, if_pos hlt]
    have hws := p.words_eq hwords
    have hlength : ws.length = p.root.words.length + (p.proj.flatMap Proj.words).length := by
      rw [hws, length_append]
    have hcolumn : front ++ n :: (ws ++ back) =
        (front ++ n :: p.root.words) ++ (p.proj.flatMap Proj.words ++ back) := by
      rw [hws]
      simp
    have hwidth : (front ++ n :: p.root.words).length = front.length + 1 + p.root.words.length := by
      rw [length_append, length_cons]
      omega
    have hwalk := walkSteps_words p.proj (front ++ n :: p.root.words) back
      (by rw [hwidth, hlength, add_assoc _ _ (p.proj.flatMap Proj.words).length]) hlt
    rw [← hcolumn, hwidth] at hwalk
    have hword : ∀ k, wordAt (front ++ n :: (ws ++ back)) (front.length + 1 + k) =
        (p.root.words ++ (p.proj.flatMap Proj.words ++ back))[k]?.getD 0 := by
      intro k
      rw [append_cons, show front.length + 1 = (front ++ [n]).length by simp, wordAt_add, hws,
        append_assoc]
    obtain ⟨root, proj⟩ := p
    cases root with
    | localVar l =>
      have hkind : wordAt (front ++ n :: (ws ++ back)) (front.length + 1) = ROOT_LOCAL := hword 0
      change ws.length = 2 + _ at hlength
      rw [hkind, if_neg (show ¬(ROOT_LOCAL = ROOT_VALUE ∨ ROOT_LOCAL = ROOT_PTR) by decide),
        if_neg (show ROOT_LOCAL ≠ ROOT_GLOBAL by decide), if_pos (by omega)]
      exact hwalk
    | global d t =>
      have hkind : wordAt (front ++ n :: (ws ++ back)) (front.length + 1) = ROOT_GLOBAL := hword 0
      change ws.length = 3 + _ at hlength
      rw [hkind, if_neg (show ¬(ROOT_GLOBAL = ROOT_VALUE ∨ ROOT_GLOBAL = ROOT_PTR) by decide),
        if_pos rfl, if_pos (by omega)]
      exact hwalk
    | value r =>
      have hkind : wordAt (front ++ n :: (ws ++ back)) (front.length + 1) = ROOT_VALUE := hword 0
      have hvalue : wordAt (front ++ n :: (ws ++ back)) (front.length + 1 + 1) = r := hword 1
      change ws.length = 2 + _ at hlength
      rw [hkind, if_pos (by decide), if_pos (by omega), hvalue, Option.map_map]
      refine (Option.map_map (r :: ·) (map Prod.fst) _).symm.trans ?_
      exact congrArg (Option.map (r :: ·)) hwalk
    | frame slot =>
      have hkind : wordAt (front ++ n :: (ws ++ back)) (front.length + 1) = ROOT_FRAME := hword 0
      change ws.length = 2 + _ at hlength
      rw [hkind, if_neg (show ¬(ROOT_FRAME = ROOT_VALUE ∨ ROOT_FRAME = ROOT_PTR) by decide),
        if_neg (show ROOT_FRAME ≠ ROOT_GLOBAL by decide), if_pos (by omega)]
      exact hwalk
    | ptr r =>
      have hkind : wordAt (front ++ n :: (ws ++ back)) (front.length + 1) = ROOT_PTR := hword 0
      have hvalue : wordAt (front ++ n :: (ws ++ back)) (front.length + 1 + 1) = r := hword 1
      change ws.length = 2 + _ at hlength
      rw [hkind, if_pos (by decide), if_pos (by omega), hvalue, Option.map_map]
      refine (Option.map_map (r :: ·) (map Prod.fst) _).symm.trans ?_
      exact congrArg (Option.map (r :: ·)) hwalk
  · rw [if_neg hlt, if_neg hlt]
    rfl

/-! ### Reading the text back -/

section Reading

theorem num_digits (w : Word) : num (digits w) = some w := by
  rw [num, digits, parseUnsigned_digits w.isLt, map_some, BitVec.ofNat_toNat, BitVec.setWidth_eq]

/-- A number does not start with a character that is no digit. -/
theorem digits_ne_cons (w : Word) {c : Char} (hc : c.isDigit = false) (cs : List Char) :
    digits w ≠ c :: cs := by
  intro h
  refine notMem_toDigits w.toNat hc ?_
  rw [← digits, h]
  exact mem_cons_self

theorem konst_row {r : Ref} (h : r &&& CONST_BIT ≠ 0) : Ref.konst (r &&& ~~~CONST_BIT) = r := by
  have hbit : r &&& CONST_BIT = CONST_BIT := by
    have hhigh : r &&& CONST_BIT = if r.toNat < 2 ^ 31 then 0 else CONST_BIT := and_high r
    rw [hhigh] at h ⊢
    split at h
    · exact absurd rfl h
    · next hle => rw [if_neg hle]
  calc Ref.konst (r &&& ~~~CONST_BIT) = (r &&& ~~~CONST_BIT) ||| (r &&& CONST_BIT) := by
        rw [hbit, Ref.konst]
    _ = r &&& (~~~CONST_BIT ||| CONST_BIT) := BitVec.and_or_distrib_left.symm
    _ = r := by
        rw [show ~~~CONST_BIT ||| CONST_BIT = BitVec.allOnes 32 by decide, BitVec.and_allOnes]

theorem valueText_cons (r : Ref) : ∃ cs, valueText r = '%' :: cs := by
  rw [valueText]
  split
  · exact ⟨_, rfl⟩
  · exact ⟨_, rfl⟩

theorem parseValue_text (r : Ref) : parseValue (valueText r) = some r := by
  rw [valueText, Ref.asInst]
  split
  · next i hi =>
    split at hi
    · cases hi
      rw [parseValue, num_digits]
      exact fun k hk => digits_ne_cons r (by decide) k hk
    · cases hi
  · next hnone =>
    split at hnone
    · cases hnone
    · next hbit => rw [parseValue, num_digits, map_some, konst_row hbit]

/-- A step's words in the text. -/
def Proj.tokens : Proj → List (List Char)
  | .field k => ['.' :: digits k]
  | .deref => [['*']]
  | .elem r => ['[' :: valueText r ++ [']']]
  | .variant k => [['a', 's'], '.' :: digits k]

theorem Proj.text_eq (step : Proj) : step.text = step.tokens.flatMap fun w => ' ' :: w := by
  cases step <;> simp [Proj.text, Proj.tokens]

theorem stripSuffix_append (c : Char) (t : List Char) : stripSuffix c (t ++ [c]) = some t := by
  rw [stripSuffix, if_pos (by simp), dropLast_concat]

theorem parseSteps_step (step : Proj) (toks : List (List Char)) :
    parseSteps (step.tokens ++ toks) = (parseSteps toks).map (step :: ·) := by
  rw [parseSteps.eq_def]
  cases step with
  | field k =>
    have hstar : '.' :: digits k ≠ ['*'] := by simp
    have has : '.' :: digits k ≠ ['a', 's'] := by simp
    show (if '.' :: digits k = ['*'] then _ else if '.' :: digits k = ['a', 's'] then _ else
      (num (digits k)).bind fun k => (parseSteps toks).map (Proj.field k :: ·)) = _
    rw [if_neg hstar, if_neg has, num_digits, bind_some]
  | deref => rfl
  | elem r =>
    have hstar : '[' :: (valueText r ++ [']']) ≠ ['*'] := by simp
    have has : '[' :: (valueText r ++ [']']) ≠ ['a', 's'] := by simp
    show (if '[' :: (valueText r ++ [']']) = ['*'] then _
      else if '[' :: (valueText r ++ [']']) = ['a', 's'] then _ else
      (stripSuffix ']' (valueText r ++ [']'])).bind fun v =>
        (parseValue v).bind fun r => (parseSteps toks).map (Proj.elem r :: ·)) = _
    rw [if_neg hstar, if_neg has, stripSuffix_append, bind_some, parseValue_text, bind_some]
  | variant k =>
    show ((num (digits k)).bind fun k => (parseSteps toks).map (Proj.variant k :: ·)) = _
    rw [num_digits, bind_some]

theorem parseSteps_tokens (proj : List Proj) : parseSteps (proj.flatMap Proj.tokens) = some proj :=
    by
  induction proj with
  | nil => rw [flatMap_nil, parseSteps]
  | cons step proj ih => rw [flatMap_cons, parseSteps_step, ih, map_some]

/-- The text of a root, without `ptr`. -/
def PlaceRoot.mark : PlaceRoot → List Char
  | .ptr r => valueText r
  | root => root.text

theorem parseRoot_mark (root : PlaceRoot) : parseRoot root.isPtr root.mark = some root := by
  have hvalue : ∀ (ptr : Bool) (r : Ref), parseRoot ptr (valueText r) =
      some (if ptr then .ptr r else .value r) := by
    intro ptr r
    have hread := parseValue_text r
    obtain ⟨cs, hcs⟩ := valueText_cons r
    rw [hcs] at hread ⊢
    show (if ptr then _ else _) = _
    rw [hread]
    cases ptr <;> rfl
  cases root with
  | localVar l =>
    show (num (digits l)).map _ = _
    rw [num_digits, map_some]
  | global d t =>
    show (splitOnceChars ':' (digits d ++ ':' :: digits t)).bind _ = _
    have hcolon : ':' ∉ digits d := notMem_toDigits d.toNat (by decide)
    rw [splitOnceChars_append hcolon, bind_some]
    show (num (digits d)).bind (fun d => (num (digits t)).bind fun t =>
      some (PlaceRoot.global d t)) = _
    rw [num_digits, bind_some, num_digits, bind_some]
  | value r => exact hvalue false r
  | frame slot =>
    show (num (digits slot)).map _ = _
    rw [num_digits, map_some]
  | ptr r => exact hvalue true r

theorem PlaceRoot.mark_cons (root : PlaceRoot) :
    ∃ c cs, root.mark = c :: cs ∧ c ≠ '*' ∧ c ≠ 'p' := by
  have hvalue : ∀ r, ∃ c cs, valueText r = c :: cs ∧ c ≠ '*' ∧ c ≠ 'p' := by
    intro r
    obtain ⟨cs, hcs⟩ := valueText_cons r
    exact ⟨_, _, hcs, by decide⟩
  cases root with
  | value r => exact hvalue r
  | ptr r => exact hvalue r
  | _ => exact ⟨_, _, rfl, by decide⟩

/-- The words of a place's text. -/
def Place.tokens (p : Place) : List (List Char) :=
  let front := if p.root.isPtr then
      [List.replicate p.lead '*' ++ ['p', 't', 'r'], p.root.mark]
    else [List.replicate p.lead '*' ++ p.root.mark]
  front ++ (p.proj.drop p.lead).flatMap Proj.tokens

theorem Place.display_eq (p : Place) : p.display = '[' :: (unwords p.tokens ++ [']']) := by
  have hsteps : (p.proj.drop p.lead).flatMap Proj.text =
      ((p.proj.drop p.lead).flatMap Proj.tokens).flatMap fun w => ' ' :: w := by
    rw [flatMap_assoc]
    exact congrArg (fun f => (p.proj.drop p.lead).flatMap f) (funext Proj.text_eq)
  rw [Place.display, hsteps, Place.tokens]
  cases hroot : p.root with
  | ptr r =>
    simp only [PlaceRoot.isPtr, if_true, cons_append, unwords_cons]
    simp [PlaceRoot.text, PlaceRoot.mark]
  | _ =>
    simp only [PlaceRoot.isPtr, Bool.false_eq_true, if_false, cons_append, unwords_cons]
    simp [PlaceRoot.mark]

theorem isWord_valueText (r : Ref) : IsWord (valueText r) := by
  rw [valueText]
  split
  · next i => exact (isWord_digits _).cons (by decide)
  · exact ((isWord_digits _).cons (by decide)).cons (by decide)

theorem PlaceRoot.isWord_mark (root : PlaceRoot) : IsWord root.mark := by
  cases root with
  | localVar l => exact (isWord_digits _).cons (by decide)
  | global d t =>
    exact ((isWord_digits _).append ((isWord_digits _).cons (by decide))).cons (by decide)
  | value r => exact isWord_valueText r
  | frame slot => exact (isWord_digits _).cons (by decide)
  | ptr r => exact isWord_valueText r

theorem Proj.isWord_tokens (step : Proj) : ∀ word ∈ step.tokens, IsWord word := by
  have has : IsWord ['a', 's'] := ⟨by simp, by simp [isWhitespace]⟩
  have hclose : IsWord [']'] := ⟨by simp, by simp [isWhitespace]⟩
  cases step with
  | field k =>
    intro word hword
    rw [mem_singleton.mp hword]
    exact (isWord_digits _).cons (by decide)
  | deref =>
    intro word hword
    rw [mem_singleton.mp hword]
    exact ⟨by simp, by simp [isWhitespace]⟩
  | elem r =>
    intro word hword
    rw [mem_singleton.mp hword]
    exact ((isWord_valueText r).append hclose).cons (by decide)
  | variant k =>
    intro word hword
    obtain rfl | hword := mem_cons.mp hword
    · exact has
    · rw [mem_singleton.mp hword]
      exact (isWord_digits _).cons (by decide)

theorem Place.isWord_tokens (p : Place) : ∀ word ∈ p.tokens, IsWord word := by
  have hstars : ∀ (n : ℕ) {word : List Char}, IsWord word → IsWord (replicate n '*' ++ word) :=
    by
    intro n word hword
    induction n with
    | zero => exact hword
    | succ n ih => exact ih.cons (by decide)
  have hptr : IsWord ['p', 't', 'r'] := ⟨by simp, by simp [isWhitespace]⟩
  intro word hword
  obtain hword | hword := mem_append.mp hword
  · split at hword
    · obtain rfl | hword := mem_cons.mp hword
      · exact hstars _ hptr
      · rw [mem_singleton.mp hword]
        exact p.root.isWord_mark
    · rw [mem_singleton.mp hword]
      exact hstars _ p.root.isWord_mark
  · obtain ⟨step, -, hword⟩ := mem_flatMap.mp hword
    exact step.isWord_tokens word hword

/-- Steps are the leading dereferences, then the others. -/
theorem replicate_lead (proj : List Proj) :
    List.replicate (proj.takeWhile (· = .deref)).length .deref ++
      proj.drop (proj.takeWhile (· = .deref)).length = proj := by
  induction proj with
  | nil => rfl
  | cons step proj ih =>
    by_cases hstep : step = .deref
    · rw [takeWhile_cons_of_pos (by simpa using hstep), length_cons, replicate_succ, cons_append,
        drop_succ_cons, ih, hstep]
    · rw [takeWhile_cons_of_neg (by simpa using hstep)]
      rfl

theorem parseTokens_of_ne {first : List Char} (h : first ≠ ['p', 't', 'r'])
    (toks : List (List Char)) : parseTokens (first :: toks) = parseFrom false first toks := by
  rw [parseTokens.eq_def]
  exact if_neg h

theorem dropWhile_stars (n : ℕ) {c : Char} (hc : c ≠ '*') (cs : List Char) :
    (List.replicate n '*' ++ c :: cs).dropWhile (· = '*') = c :: cs := by
  induction n with
  | zero => exact dropWhile_cons_of_neg (by simpa using hc)
  | succ n ih =>
    rw [replicate_succ, cons_append, dropWhile_cons_of_pos (by simp), ih]

theorem dropWhile_mark (root : PlaceRoot) (n : ℕ) :
    (List.replicate n '*' ++ root.mark).dropWhile (· = '*') = root.mark := by
  obtain ⟨c, cs, hcs, hc, -⟩ := root.mark_cons
  rw [hcs, dropWhile_stars n hc]

/-- A root with stars before it and the words of steps are read as its place. -/
theorem parseFrom_mark (root : PlaceRoot) (n : ℕ) (proj : List Proj) :
    parseFrom root.isPtr (List.replicate n '*' ++ root.mark) (proj.flatMap Proj.tokens) =
      some ⟨root, List.replicate n .deref ++ proj⟩ := by
  rw [parseFrom, dropWhile_mark, parseRoot_mark, parseSteps_tokens, length_append, length_replicate,
    Nat.add_sub_cancel]
  show (if root.isPtr && !root.isPtr then none else _) = _
  rw [if_neg (by simp)]
  rfl

theorem mark_ne_ptr (root : PlaceRoot) (n : ℕ) :
    List.replicate n '*' ++ root.mark ≠ ['p', 't', 'r'] := by
  intro h
  obtain ⟨c, cs, hcs, -, hc⟩ := root.mark_cons
  have hdrop := dropWhile_mark root n
  rw [h, hcs] at hdrop
  exact hc (cons.inj hdrop).1.symm

/-- The words of a place are read as the place unless stars stand before `ptr`. -/
theorem parseTokens_tokens (p : Place) :
    parseTokens p.tokens = if p.root.isPtr ∧ p.lead ≠ 0 then none else some p := by
  have hproj : replicate p.lead .deref ++ p.proj.drop p.lead = p.proj := replicate_lead p.proj
  have hread := parseFrom_mark p.root p.lead (p.proj.drop p.lead)
  rw [hproj] at hread
  unfold Place.tokens
  cases hptr : p.root.isPtr with
  | false =>
    rw [hptr] at hread
    rw [if_neg Bool.false_ne_true, if_neg (by simp), singleton_append,
      parseTokens_of_ne (mark_ne_ptr _ _), hread]
  | true =>
    rw [hptr] at hread
    rw [if_pos rfl, cons_append, singleton_append]
    cases hlead : p.lead with
    | zero =>
      rw [hlead] at hread
      exact hread
    | succ n =>
      have hne : replicate (n + 1) '*' ++ ['p', 't', 'r'] ≠ ['p', 't', 'r'] := by
        simp [replicate_succ]
      rw [parseTokens_of_ne hne, parseFrom, dropWhile_stars _ (by decide), if_pos (by simp)]
      rfl

/-- **The text form reads back**, but for stars before `ptr`. -/
theorem parsePlace_display (p : Place) :
    parsePlace p.display = .ok p ↔ ¬(p.root.isPtr ∧ p.proj.head? = some .deref) := by
  have hlead : p.lead ≠ 0 ↔ p.proj.head? = some .deref := by
    unfold Place.lead
    cases p.proj with
    | nil => simp
    | cons step proj =>
      by_cases hstep : step = .deref
      · simp [hstep]
      · simp [takeWhile_cons_of_neg, hstep]
  have hstrip : (stripPrefix '[' p.display).bind (stripSuffix ']') = some (unwords p.tokens) := by
    rw [p.display_eq, stripPrefix, if_pos rfl, bind_some, stripSuffix_append]
  simp only [parsePlace, hstrip, splitWhitespace_unwords p.isWord_tokens, parseTokens_tokens, hlead]
  split
  · next h =>
    split at h
    · next hstar => simp [hstar]
    · cases h
  · next q h =>
    split at h
    · cases h
    · next hstar =>
      cases h
      simp [hstar]

end Reading

/-! ### One encoding and one text -/

/-- A word without the highest bit reaches the record of a place; with it, the word is a bare local.
-/
theorem decodePlace_high (h : ¬word.toNat < 2 ^ 31) :
    decodePlace extra word = some (.bare (word &&& ~~~BARE_LOCAL)) := by
  rw [decodePlace, if_pos (mt and_high_eq_zero.mp h)]

/-- The slots of a place operand that is no bare local. -/
theorem placeSlots_low (h : word.toNat < 2 ^ 31) :
    placeSlots extra word = placeWords extra word.toNat := by
  have hne : word ≠ NONE := by
    rintro rfl
    exact absurd h (by decide)
  rw [placeSlots, if_neg hne, if_pos (and_high_eq_zero.mpr h)]

/-- **Places have one encoding and one text.** The record of a place whose indices fit, at an offset
of a column, decodes to the place and its slots are the values of the place in their order, exactly
when the offset has no `BARE_LOCAL` bit and the record ends within `u32`. The text of a place reads
back as the place unless dereferences stand before `ptr`. A record that decodes has the words of its
place unless it is the record of a bare local, which has none; a bare local's word is its place's.
-/
theorem place_exact (extra : List Word) (word : Word) (p : Place) :
    (∀ ws, record extra word.toNat = some ws → p.words = some ws → (∀ step ∈ p.proj, step.Fits) →
      (decodePlace extra word = some p ∧
          (placeSlots extra word).map (List.map Prod.fst) = some p.values ↔
        word.toNat < 2 ^ 31 ∧ word.toNat + 1 + ws.length < 2 ^ 32)) ∧
    (parsePlace p.display = .ok p ↔ ¬(p.root.isPtr ∧ p.proj.head? = some .deref)) ∧
    (decodePlace extra word = some p →
      (word &&& BARE_LOCAL ≠ 0 → ∃ l, p = .bare l ∧ l ||| BARE_LOCAL = word) ∧
      (word &&& BARE_LOCAL = 0 → ∃ ws, record extra word.toNat = some ws ∧
        (p.words = some ws ↔ ∀ l, ws ≠ [ROOT_LOCAL, l]))) := by
  refine ⟨fun ws hrecord hwords hfits => ?_, parsePlace_display p, fun h => ⟨fun hbare => ?_,
    fun hbare => ?_⟩⟩
  · have hslots := placeWords_record hrecord hwords
    constructor
    · rintro ⟨hdecode, hvalues⟩
      have hlow : word.toNat < 2 ^ 31 := by
        by_contra hhigh
        rw [decodePlace_high hhigh] at hdecode
        cases hdecode
        cases hwords
      refine ⟨hlow, ?_⟩
      by_contra hend
      rw [placeSlots_low hlow, hslots, if_neg hend] at hvalues
      cases hvalues
    · rintro ⟨hlow, hend⟩
      rw [placeSlots_low hlow, hslots, if_pos hend]
      exact ⟨decodePlace_record hrecord hwords hfits hlow, rfl⟩
  · rw [decodePlace, if_pos hbare] at h
    cases h
    exact ⟨_, rfl, konst_row hbare⟩
  · have hlow := and_high_eq_zero.mp hbare
    obtain ⟨ws, hrecord⟩ : ∃ ws, record extra word.toNat = some ws := by
      rw [decodePlace, if_neg (not_not.mpr hbare)] at h
      obtain ⟨ws, hrecord, -⟩ := Option.bind_eq_some_iff.mp h
      exact ⟨ws, hrecord⟩
    exact ⟨ws, hrecord, words_of_decodePlace hrecord hlow h⟩

/-- A dereferenced pointer's text does not read back, and the record of a bare local decodes to a
place without a record. -/
theorem place_text_lost :
    parsePlace (Place.mk (.ptr 5) [.deref]).display ≠ .ok ⟨.ptr 5, [.deref]⟩ ∧
    decodePlace [2, ROOT_LOCAL, 7] 0 = some (.bare 7) ∧ (Place.bare 7).words = none :=
  ⟨by decide +kernel, by decide +kernel, rfl⟩

end HdLang.Tir
