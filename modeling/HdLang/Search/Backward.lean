import HdLang.Search.Windows

/-!
# The last occurrence

`byte_rfind` reads both strings backwards and keeps the longest start of the needle that ends where it
is. `fail` holds the borders of the needle's starts (`failFrom_eq`), so that the first place where the
whole needle ends is the last occurrence (`byteRfind_ends`). `search_exact` states both searches.
-/

namespace HdLang.Search

open Words List

variable {needle text : Bytes}

/-- The letters of a string read backwards. -/
def back (text : Bytes) (k : ℕ) : ℕ := letter text (text.length - 1 - k)

theorem bytesBack_eq {i : ℕ} (h : i < text.length) :
    ∃ byte, bytesBack text i = .ok byte ∧ byte.toNat = back text i := by
  have hlt : text.length - 1 - i < text.length := by omega
  refine ⟨text[text.length - 1 - i], ?_, (letter_eq hlt).symm⟩
  unfold bytesBack
  rw [sub_eq (by omega), ok_bind, sub_eq (by omega), ok_bind, bytesAt_eq hlt]

/-- `fail` holds the longest border of each start of the needle that it has reached. -/
def Borders (needle : Bytes) (fail : List ℕ) : Prop :=
  ∀ i b, fail[i]? = some b → Longest (back needle) (rest (back needle)) needle.length i b

/-- An occurrence is an end of the needle in the strings read backwards. -/
theorem occursAt_iff_endsAt {p : ℕ} (hp : p ≤ text.length) :
    OccursAt needle text p ↔ EndsAt (back needle) (back text) (text.length - p) needle.length := by
  rw [occursAt_iff]
  constructor
  · rintro ⟨hfit, hmatches⟩
    refine ⟨by omega, fun k hk => ?_⟩
    have hread := hmatches (needle.length - 1 - k) (by omega)
    unfold back
    rw [show text.length - 1 - (text.length - p - needle.length + k) =
      p + (needle.length - 1 - k) by omega]
    exact hread
  · rintro ⟨hfit, hread⟩
    refine ⟨by omega, fun k hk => ?_⟩
    have hsame := hread (needle.length - 1 - k) (by omega)
    unfold back at hsame
    rw [show text.length - 1 - (text.length - p - needle.length + (needle.length - 1 - k)) = p + k
      by omega, show needle.length - 1 - (needle.length - 1 - k) = k by omega] at hsame
    exact hsame

/-! ### A byte read -/

variable {t : ℕ → ℕ} {fail : List ℕ} {index matched turns : ℕ} {byte : UInt8}

/-- The fall back ends at a start that the byte continues, or at none. -/
theorem fallBack_eq (hborders : Borders needle fail) (hbyte : byte.toNat = t index)
    (h : Continues (back needle) t needle.length index matched) (hfail : matched ≤ fail.length)
    (hturns : matched < turns) :
    ∃ r, fallBack turns needle fail byte matched = .ok r ∧
      Continues (back needle) t needle.length index r ∧
      (r = 0 ∨ t index = back needle r) := by
  refine turning_ends (fun m => Continues (back needle) t needle.length index m ∧ m ≤ fail.length)
    (fun r => Continues (back needle) t needle.length index r ∧ (r = 0 ∨ t index = back needle r))
    (fun m => m) ?_ ⟨h, hfail⟩ hturns
  rintro m ⟨hm, hle⟩
  by_cases hpos : m > 0
  · obtain ⟨next, hnext, hletter⟩ := bytesBack_eq hm.lt
    rw [if_pos hpos, hnext, ok_bind]
    by_cases hsame : byte = next
    · rw [if_neg (not_not.mpr hsame)]
      refine ⟨_, rfl, fun s' h => (nomatch h), fun r hr => ?_⟩
      obtain rfl := Sum.inr.inj hr
      exact ⟨hm, .inr (by rw [← hbyte, hsame, hletter])⟩
    · have hlt : m - 1 < fail.length := by omega
      have hdiffer : t index ≠ back needle m := by
        rw [← hbyte, ← hletter]
        exact fun heq => hsame (UInt8.toNat_inj.mp heq)
      obtain ⟨hfall, hless⟩ := hm.fall hpos hdiffer (hborders (m - 1) _ (getElem?_eq_getElem hlt))
      rw [if_pos hsame]
      unfold failAt
      rw [getElem?_eq_getElem hlt]
      refine ⟨_, rfl, fun s' hs' => ?_, fun r hr => nomatch hr⟩
      obtain rfl := Sum.inl.inj hs'
      exact ⟨⟨hfall, by omega⟩, hless⟩
  · rw [if_neg hpos]
    refine ⟨_, rfl, fun s' h => (nomatch h), fun r hr => ?_⟩
    obtain rfl := Sum.inr.inj hr
    exact ⟨hm, .inl (by omega)⟩

/-- **A byte read** keeps the longest start that ends there. -/
theorem advanceMatch_eq (hborders : Borders needle fail) (hbyte : byte.toNat = t index)
    (h : Longest (back needle) t needle.length index matched) (hlt : matched < needle.length)
    (hfail : matched ≤ fail.length) (hturns : matched < turns) :
    ∃ r, advanceMatch turns needle fail byte matched = .ok r ∧
      Longest (back needle) t needle.length (index + 1) r := by
  obtain ⟨m, hrun, hm, hend⟩ := fallBack_eq hborders hbyte (h.continues hlt) hfail hturns
  obtain ⟨next, hnext, hletter⟩ := bytesBack_eq hm.lt
  unfold advanceMatch
  rw [hrun, ok_bind, hnext, ok_bind]
  by_cases hsame : byte = next
  · rw [if_pos hsame]
    exact ⟨_, rfl, hm.longest.1 (by rw [← hbyte, hsame, hletter])⟩
  · have hdiffer : t index ≠ back needle m := by
      rw [← hbyte, ← hletter]
      exact fun heq => hsame (UInt8.toNat_inj.mp heq)
    rw [if_neg hsame]
    exact ⟨_, rfl, hm.longest.2 (hend.resolve_right hdiffer) hdiffer⟩

/-! ### The loops -/

/-- **The failure table**: the loop fills it with the borders. -/
theorem failFrom_eq (hturns : needle.length < turns) (hindex : index = fail.length)
    (hle : index ≤ needle.length) (hpos : 0 < index) (hborders : Borders needle fail)
    (hmatched : Longest (back needle) (rest (back needle)) needle.length (index - 1) matched) :
    ∃ fail', failFrom turns needle fail matched index = .ok fail' ∧ Borders needle fail' ∧
      fail'.length = needle.length := by
  induction hn : needle.length - index generalizing index fail matched with
  | zero =>
    refine ⟨fail, ?_, hborders, by omega⟩
    rw [failFrom, dif_neg (by omega)]
  | succ n ih =>
    have hlt : index < needle.length := by omega
    have hends := hmatched.ends.1
    obtain ⟨byte, hbyte, hletter⟩ := bytesBack_eq hlt
    have hletter' : byte.toNat = rest (back needle) (index - 1) := by
      unfold rest
      rw [hletter, Nat.sub_add_cancel hpos]
    obtain ⟨r, hrun, hr⟩ :=
      advanceMatch_eq hborders hletter' hmatched (by omega) (by omega) (show matched < turns by omega)
    rw [Nat.sub_add_cancel hpos] at hr
    rw [failFrom, dif_pos hlt, hbyte, ok_bind, hrun, ok_bind]
    refine ih (by rw [length_append, length_singleton, hindex]) (by omega) (by omega) ?_
      hr (by omega)
    intro i b hb
    obtain hold | hnew := Nat.lt_or_ge i fail.length
    · rw [getElem?_append_left hold] at hb
      exact hborders i b hb
    · rw [getElem?_append_right hnew] at hb
      rw [getElem?_singleton] at hb
      obtain ⟨hi, hb⟩ := Option.ite_none_right_eq_some.mp hb
      obtain rfl := Option.some.inj hb
      obtain rfl : i = index := by omega
      exact hr

/-- What a search for the last occurrence says. -/
def IsLast (needle text : Bytes) : Option ℕ → Prop
  | some position => IsGreatest {p | OccursAt needle text p} position
  | none => ∀ p, ¬ OccursAt needle text p

/-- The loop over the text finds the first place where the needle ends. -/
theorem rfindFrom_eq (hturns : needle.length < turns) (hfail : fail.length = needle.length)
    (hborders : Borders needle fail)
    (hmatched : Longest (back needle) (back text) needle.length index matched)
    (hlt : matched < needle.length) (hindex : index ≤ text.length)
    (hnone : ∀ p, text.length - index ≤ p → ¬ OccursAt needle text p) :
    ∃ r, rfindFrom turns text needle fail matched index = .ok r ∧ IsLast needle text r := by
  induction hn : text.length - index generalizing index matched with
  | zero =>
    refine ⟨none, ?_, fun p => hnone p (by omega)⟩
    rw [rfindFrom, dif_neg (by omega)]
  | succ n ih =>
    have hlt' : index < text.length := by omega
    obtain ⟨byte, hbyte, hletter⟩ := bytesBack_eq hlt'
    obtain ⟨r, hrun, hr⟩ :=
      advanceMatch_eq hborders hletter hmatched hlt (by omega) (show matched < turns by omega)
    have hstart : text.length - (text.length - (index + 1)) = index + 1 := by omega
    rw [rfindFrom, dif_pos hlt', hbyte, ok_bind, hrun, ok_bind]
    by_cases hwhole : r = needle.length
    · rw [if_pos hwhole, sub_eq (by omega), ok_bind]
      refine ⟨_, rfl, ?_, fun p hp => ?_⟩
      · refine (occursAt_iff_endsAt (by omega)).mpr ?_
        rw [hstart, ← hwhole]
        exact hr.ends
      · by_contra hgt
        exact hnone p (by omega) hp
    · rw [if_neg hwhole]
      refine ih hr (lt_of_le_of_ne hr.le hwhole) (by omega) (fun p hp hoccurs => ?_) (by omega)
      obtain heq | hgt := Nat.eq_or_lt_of_le hp
      · rw [occursAt_iff_endsAt (by omega), ← heq, hstart] at hoccurs
        exact hwhole (le_antisymm hr.le (hr.longest _ le_rfl hoccurs))
      · exact hnone p (by omega) hoccurs

/-- **`byte_rfind` ends** and finds the last occurrence. -/
theorem byteRfind_ends (hturns : needle.length < turns) :
    ∃ r, byteRfind turns text needle = .ok r ∧ IsLast needle text r := by
  unfold byteRfind
  dsimp only
  by_cases hout : needle.length > text.length
  · rw [if_pos hout]
    refine ⟨none, rfl, fun p hoccurs => ?_⟩
    have hle := hoccurs.1
    omega
  rw [if_neg hout]
  by_cases hzero : needle.length = 0
  · rw [if_pos hzero]
    refine ⟨_, rfl, ⟨by omega, fun k hk => by omega⟩, fun p hp => ?_⟩
    have hle := hp.1
    omega
  rw [if_neg hzero]
  have hfirst : Borders needle [0] := by
    intro i b hb
    obtain ⟨hi, rfl⟩ := List.getElem?_eq_some_iff.mp hb
    obtain rfl : i = 0 := Nat.lt_one_iff.mp hi
    exact longest_zero
  obtain ⟨fail, hrun, hborders, hlength⟩ :=
    failFrom_eq hturns (show 1 = [0].length from rfl) (by omega) Nat.one_pos hfirst longest_zero
  rw [hrun, ok_bind]
  refine rfindFrom_eq hturns hlength hborders longest_zero (by omega) (Nat.zero_le _) fun p hp h => ?_
  have hle := h.1
  omega

end HdLang.Search
