import HdLang.Lib.Indexed
import Mathlib.Algebra.Order.Group.Nat

/-!
# Numbering values

Tables that give each value a number once, and what numbering one by one comes to.
-/

/-!
## Find or append

A store that holds each of its elements at one place for ever. To intern an element is to look for one
that is the same, and to append it when there is none: the store only grows, the place that is given
holds an element that is the same, and what every element has, and the new one too, every element of
the new store has.
-/

section

universe u

namespace Interned

variable {α : Type u} {P : α → Prop} {l : List α} {same : α → Bool} {a : α}

/-- The place of an element of the same content, and the store that holds it. -/
def intern (l : List α) (same : α → Bool) (a : α) : ℕ × List α :=
  match l.findIdx? same with
  | some i => (i, l)
  | none => (l.length, l ++ [a])

theorem isPrefix : l <+: (intern l same a).2 := by
  unfold intern
  cases l.findIdx? same with
  | some i => exact List.prefix_refl l
  | none => exact List.prefix_append l [a]

theorem getElem? (h : same a = true) :
    ∃ b, (intern l same a).2[(intern l same a).1]? = some b ∧ same b = true := by
  unfold intern
  cases hi : l.findIdx? same with
  | some i =>
    obtain ⟨hlt, hsame, -⟩ := List.findIdx?_eq_some_iff_getElem.mp hi
    exact ⟨l[i], List.getElem?_eq_getElem hlt, hsame⟩
  | none => exact ⟨a, List.getElem?_concat_length, h⟩

/-- Interning again finds the same place, in any later store. -/
theorem intern_of_isPrefix {l' : List α} {b : α} (h : same a = true)
    (hl : (intern l same a).2 <+: l') : intern l' same b = ((intern l same a).1, l') := by
  have hfind : (intern l same a).2.findIdx? same = some (intern l same a).1 := by
    unfold intern
    cases hi : l.findIdx? same with
    | some i => exact hi
    | none =>
      rw [List.findIdx?_append, hi]
      simp [h]
  obtain ⟨rest, rfl⟩ := hl
  generalize intern l same a = r at hfind
  unfold intern
  rw [List.findIdx?_append, hfind]
  rfl

end Interned

end

/-!
## Numbers by first occurrence

The entries of a list numbered by the order in which new ones appear. The numbers say which entries
are equal and nothing else: two lists have the same numbers if their entries are equal at the same
places (`number_congr`), and entries have the same number just when they are equal (`number_inj`).
-/

section

universe u v

namespace Numbering

variable {α : Type u} {β : Type v} [DecidableEq α] [DecidableEq β] {seen as : List α} {bs : List β}
  {a : α}

/-- The entries of a list in the order of their first occurrence, after those seen before. -/
@[grind =] def names : List α → List α → List α
  | seen, [] => seen
  | seen, a :: as => if a ∈ seen then names seen as else names (seen ++ [a]) as

/-- The number of each entry. -/
def number (as : List α) : List ℕ := as.map fun a => (names [] as).idxOf a

@[simp] theorem mem_names : a ∈ names seen as ↔ a ∈ seen ∨ a ∈ as := by
  induction as generalizing seen with
  | nil => simp [names]
  | cons b as ih =>
    unfold names
    by_cases hb : b ∈ seen
    · rw [if_pos hb, ih, List.mem_cons]
      constructor
      · rintro (h | h)
        · exact Or.inl h
        · exact Or.inr (Or.inr h)
      · rintro (h | rfl | h)
        · exact Or.inl h
        · exact Or.inl hb
        · exact Or.inr h
    · rw [if_neg hb, ih, List.mem_append, List.mem_singleton, List.mem_cons, or_assoc]

theorem isPrefix_names : seen <+: names seen as := by
  induction as generalizing seen with
  | nil => exact List.prefix_refl seen
  | cons b as ih =>
    unfold names
    by_cases hb : b ∈ seen
    · rw [if_pos hb]
      exact ih
    · rw [if_neg hb]
      exact (List.prefix_append seen [b]).trans ih

theorem length_names_le : (names seen as).length ≤ seen.length + as.length := by
  induction as generalizing seen with
  | nil => exact le_refl _
  | cons b as ih =>
    unfold names
    by_cases hb : b ∈ seen
    · rw [if_pos hb]
      exact ih.trans (by simp)
    · rw [if_neg hb]
      refine ih.trans ?_
      rw [List.length_append, List.length_singleton, List.length_cons]
      omega

variable {f : α → β}

/-- A renaming that keeps entries apart renames the names. -/
theorem names_map (hf : ∀ a b, a ∈ seen ∨ a ∈ as → b ∈ seen ∨ b ∈ as → f a = f b → a = b) :
    names (seen.map f) (as.map f) = (names seen as).map f := by
  induction as generalizing seen with
  | nil => rfl
  | cons b as ih =>
    have hmem : f b ∈ seen.map f ↔ b ∈ seen := by
      constructor
      · intro h
        obtain ⟨c, hc, heq⟩ := List.mem_map.mp h
        exact hf c b (Or.inl hc) (Or.inr List.mem_cons_self) heq ▸ hc
      · exact List.mem_map_of_mem
    have htail : ∀ {c}, c ∈ seen ∨ c ∈ as → c ∈ seen ∨ c ∈ b :: as :=
      fun h => h.imp_right (List.mem_cons_of_mem b)
    rw [List.map_cons]
    unfold names
    by_cases hb : b ∈ seen
    · rw [if_pos hb, if_pos (hmem.mpr hb)]
      exact ih fun c d hc hd => hf c d (htail hc) (htail hd)
    · rw [if_neg hb, if_neg (mt hmem.mp hb)]
      have happ : seen.map f ++ [f b] = (seen ++ [b]).map f := by simp
      rw [happ]
      refine ih ?_
      have hsnoc : ∀ {c}, c ∈ seen ++ [b] ∨ c ∈ as → c ∈ seen ∨ c ∈ b :: as := by
        intro c h
        rw [List.mem_append, List.mem_singleton, or_assoc] at h
        rwa [List.mem_cons]
      exact fun c d hc hd => hf c d (hsnoc hc) (hsnoc hd)

theorem idxOf_map {l : List α} (hf : ∀ b ∈ l, f a = f b → a = b) :
    (l.map f).idxOf (f a) = l.idxOf a := by
  induction l with
  | nil => rfl
  | cons b l ih =>
    rw [List.map_cons, List.idxOf_cons, List.idxOf_cons,
      ih fun c hc => hf c (List.mem_cons_of_mem b hc)]
    by_cases hb : b = a
    · rw [hb, BEq.rfl, BEq.rfl]
    · have hfb : f b ≠ f a := fun h => hb (hf b List.mem_cons_self h.symm).symm
      rw [beq_false_of_ne hb, beq_false_of_ne hfb]

theorem idxOf?_of_mem {l : List α} (ha : a ∈ l) : l.idxOf? a = some (l.idxOf a) := by
  obtain ⟨i, hi⟩ := Option.isSome_iff_exists.mp (List.isSome_idxOf?.mpr ha)
  have hget := List.idxOf_eq_getD_idxOf? a l
  rw [hi, Option.getD_some] at hget
  rw [hi, hget]

theorem number_map (hf : ∀ a ∈ as, ∀ b ∈ as, f a = f b → a = b) :
    number (as.map f) = number as := by
  have hnames : names [] (as.map f) = (names [] as).map f := by
    have h : names (([] : List α).map f) (as.map f) = (names [] as).map f := names_map ?_
    · rwa [List.map_nil] at h
    · intro a b ha hb
      exact hf a (ha.resolve_left List.not_mem_nil) b (hb.resolve_left List.not_mem_nil)
  unfold number
  rw [List.map_map, hnames]
  refine List.map_congr_left fun a ha => ?_
  refine idxOf_map fun b hb => hf a ha b ?_
  exact (mem_names.mp hb).resolve_left List.not_mem_nil

/-- **The numbers depend on which entries are equal.** -/
theorem number_congr (hlen : as.length = bs.length)
    (h : ∀ i j, i < as.length → j < as.length → (as[i]? = as[j]? ↔ bs[i]? = bs[j]?)) :
    number as = number bs := by
  -- the second list is the first, renamed
  let f : β → Option α := fun b => as[bs.idxOf b]?
  have hmap : bs.map f = as.map some := by
    refine List.ext_getElem? fun i => ?_
    rw [List.getElem?_map, List.getElem?_map]
    by_cases hi : i < bs.length
    · have hat : bs[i]? = some bs[i] := List.getElem?_eq_getElem hi
      have hidx : bs.idxOf bs[i] < bs.length := List.idxOf_lt_length_of_mem (List.getElem_mem hi)
      have hsame : bs[bs.idxOf bs[i]]? = bs[i]? := by
        rw [List.getElem?_eq_getElem hidx, List.getElem_idxOf hidx, hat]
      have hsome := (h _ i (hlen ▸ hidx) (hlen ▸ hi)).mpr hsame
      rw [hat, Option.map_some]
      show some (as[bs.idxOf bs[i]]?) = _
      rw [hsome, List.getElem?_eq_getElem (hlen ▸ hi), Option.map_some]
    · have hi' : ¬i < as.length := hlen ▸ hi
      rw [List.getElem?_eq_none (not_lt.mp hi), List.getElem?_eq_none (not_lt.mp hi')]
      rfl
  have hf : ∀ a ∈ bs, ∀ b ∈ bs, f a = f b → a = b := by
    intro a ha b hb hab
    have hia := List.idxOf_lt_length_of_mem ha
    have hib := List.idxOf_lt_length_of_mem hb
    have heq := (h _ _ (hlen ▸ hia) (hlen ▸ hib)).mp hab
    rw [List.getElem?_eq_getElem hia, List.getElem?_eq_getElem hib, List.getElem_idxOf hia,
      List.getElem_idxOf hib, Option.some.injEq] at heq
    exact heq
  calc
    number as = number (as.map some) := (number_map fun a _ b _ h => Option.some.inj h).symm
    _ = number (bs.map f) := by rw [hmap]
    _ = number bs := number_map hf

@[simp] theorem length_number : (number as).length = as.length := List.length_map ..

theorem idxOf_names_inj {b : α} (ha : a ∈ as) :
    (names [] as).idxOf a = (names [] as).idxOf b ↔ a = b :=
  List.idxOf_inj (mem_names.mpr (Or.inr ha))

/-- **Entries have the same number** just when they are equal. -/
theorem number_inj {i j : ℕ} (hi : i < as.length) (hj : j < as.length) :
    (number as)[i]? = (number as)[j]? ↔ as[i]? = as[j]? := by
  unfold number
  rw [List.getElem?_map, List.getElem?_map, List.getElem?_eq_getElem hi,
    List.getElem?_eq_getElem hj, Option.map_some, Option.map_some, Option.some.injEq,
    Option.some.injEq, idxOf_names_inj (List.getElem_mem hi)]

end Numbering

end
