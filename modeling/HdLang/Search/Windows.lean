import HdLang.Search.Needle

/-!
# The window loops of `search_from`

A window either is an occurrence or leads to a later window with none in between
(`tryWindow_eq`); what it remembers of the needle does match there. Both loops keep that no occurrence
starts before the window they are at (`Reached`), so that the hand-over between them loses nothing
(`pairWindows_ends`, `plainWindows_ends`), and `search_from` finds the first occurrence
(`searchFrom_ends`).
-/

namespace HdLang.Search

open Words Option List Nat

variable {needle text : Bytes} {finder : Searcher} {start position : ℕ}

/-! ### A window -/

/-- The right part is read up to its first difference. -/
theorem matchRight_eq (hposition : position + needle.length ≤ text.length) {index : ℕ}
    (hindex : index ≤ needle.length) :
    ∃ r, matchRight needle text position index = .ok r ∧ index ≤ r ∧ r ≤ needle.length ∧
      (∀ k, index ≤ k → k < r → letter text (position + k) = letter needle k) ∧
      (r < needle.length → letter text (position + r) ≠ letter needle r) := by
  induction hn : needle.length - index generalizing index with
  | zero =>
    refine ⟨index, ?_, le_rfl, hindex, fun k hk hk' => by omega, fun h => by omega⟩
    rw [matchRight, dif_neg (by omega)]
  | succ n ih =>
    have hlt : index < needle.length := by omega
    have hlt' : position + index < text.length := by omega
    rw [matchRight, dif_pos hlt, bytesAt_eq hlt, bytesAt_eq hlt', ok_bind, ok_bind]
    by_cases hsame : needle[index] = text[position + index]
    · rw [if_pos hsame]
      rw [getElem_eq_iff hlt hlt'] at hsame
      obtain ⟨r, hrun, hge, hle, hequal, hdiffer⟩ :=
        ih (show index + 1 ≤ needle.length by omega) (by omega)
      refine ⟨r, hrun, by omega, hle, fun k hk hk' => ?_, hdiffer⟩
      obtain rfl | hgt := eq_or_lt_of_le hk
      · exact hsame.symm
      · exact hequal k hgt hk'
    · rw [if_neg hsame]
      rw [getElem_eq_iff hlt hlt'] at hsame
      exact ⟨index, rfl, le_rfl, hindex, fun k hk hk' => by omega, fun _ => Ne.symm hsame⟩

/-- The left part is read down to its last difference, or to what is remembered. -/
theorem matchLeft_eq (hposition : position + needle.length ≤ text.length) (memory : ℕ) {left : ℕ}
    (hleft : left ≤ needle.length) :
    ∃ r, matchLeft needle text position memory left = .ok r ∧ r ≤ left ∧
      (∀ k, r ≤ k → k < left → letter text (position + k) = letter needle k) ∧
      (r > memory → letter text (position + (r - 1)) ≠ letter needle (r - 1)) := by
  induction left with
  | zero => exact ⟨0, rfl, le_rfl, fun k hk hk' => by omega, fun h => by omega⟩
  | succ left ih =>
    have hlt : left < needle.length := hleft
    have hlt' : position + left < text.length := by omega
    by_cases hgo : left + 1 > memory
    · rw [matchLeft, if_pos hgo, bytesAt_eq hlt, bytesAt_eq hlt', ok_bind, ok_bind]
      by_cases hsame : needle[left] = text[position + left]
      · rw [if_pos hsame]
        rw [getElem_eq_iff hlt hlt'] at hsame
        obtain ⟨r, hrun, hle, hequal, hdiffer⟩ := ih (by omega)
        refine ⟨r, hrun, by omega, fun k hk hk' => ?_, hdiffer⟩
        obtain rfl | hless := eq_or_lt_of_le (le_of_lt_succ hk')
        · exact hsame.symm
        · exact hequal k hk hless
      · rw [if_neg hsame]
        rw [getElem_eq_iff hlt hlt'] at hsame
        exact ⟨left + 1, rfl, le_rfl, fun k hk hk' => by omega, fun _ => Ne.symm hsame⟩
    · rw [matchLeft, if_neg hgo]
      exact ⟨left + 1, rfl, le_rfl, fun k hk hk' => by omega, fun h => absurd h hgo⟩

/-- The first `memory` letters of the needle match at `position`. -/
def Remembers (needle text : Bytes) (position memory : ℕ) : Prop :=
  memory ≤ needle.length ∧ ∀ k < memory, letter text (position + k) = letter needle k

theorem remembers_zero : Remembers needle text position 0 := ⟨zero_le _, fun k hk => by omega⟩

/-- The needle is not in the text from `start` up to before `stop`. -/
def NoneIn (needle text : Bytes) (start stop : ℕ) : Prop :=
  ∀ p, start ≤ p → p < stop → ¬ OccursAt needle text p

theorem NoneIn.trans {middle stop : ℕ} (h : NoneIn needle text start middle)
    (h' : NoneIn needle text middle stop) : NoneIn needle text start stop := fun p hp hp' =>
  if hlt : p < middle then h p hp hlt else h' p (by omega) hp'

/-- **A window** is an occurrence, or leads past itself and past no occurrence, to a window where what is
remembered matches. -/
theorem tryWindow_eq (h : Prepared needle finder)
    (hposition : position + needle.length ≤ text.length) {memory : ℕ}
    (hmemory : Remembers needle text position memory) :
    ∃ r, tryWindow finder text position memory = .ok r ∧
      (r = none → OccursAt needle text position) ∧
      ∀ next memory', r = some (next, memory') → position < next ∧
        next ≤ position + needle.length ∧ NoneIn needle text position next ∧
        Remembers needle text next memory' := by
  obtain ⟨hneedle, hsplit, hcritical, hpos, hperiod, hshift, hperiodic, -⟩ := h
  obtain ⟨hmemory, hknown⟩ := hmemory
  have hfrom : (if memory > finder.split then memory else finder.split) ≤ needle.length := by
    split <;> omega
  obtain ⟨index, hrun, hge, hle, hequal, hdiffer⟩ := matchRight_eq hposition hfrom
  -- Right of the cut, what is remembered and what is read match.
  have hright : ∀ k, finder.split ≤ k → k < index →
      letter text (position + k) = letter needle k := by
    intro k hk hk'
    by_cases hread : (if memory > finder.split then memory else finder.split) ≤ k
    · exact hequal k hread hk'
    · refine hknown k ?_
      split at hread <;> omega
  have hindex : finder.split ≤ index := by split at hge <;> omega
  unfold tryWindow
  dsimp only
  rw [hneedle, hrun, ok_bind]
  by_cases hshort : index < needle.length
  · rw [if_pos hshort, sub_eq (by omega), ok_bind]
    refine ⟨_, rfl, fun h => (nomatch h), fun next memory' h => ?_⟩
    obtain ⟨rfl, rfl⟩ := Prod.mk.inj (some.inj h)
    refine ⟨by omega, by omega, fun p hp hp' hoccurs => ?_, remembers_zero⟩
    have hmatches := (occursAt_iff.mp hoccurs).2
    rw [show p = position + (p - position) by omega] at hmatches
    exact hcritical.mismatch hright hindex hshort (hdiffer hshort) (by omega) hmatches
  · obtain rfl : index = needle.length := by omega
    obtain ⟨left, hrun', hle', hequal', hdiffer'⟩ := matchLeft_eq hposition memory hsplit.le
    rw [if_neg hshort, hrun', ok_bind]
    by_cases hmiss : left > memory
    · -- Only a period away can the next occurrence be.
      have hnone : NoneIn needle text position (position + finder.period) := by
        intro p hp hp' hoccurs
        have hmatches := (occursAt_iff.mp hoccurs).2
        obtain rfl | hgt := eq_or_lt_of_le hp
        · exact hdiffer' hmiss (hmatches (left - 1) (by omega))
        · rw [show p = position + (p - position) by omega] at hmatches
          obtain ⟨hfar, hq⟩ := hcritical.shift hright (by omega) hmatches
          have hleast := hshift _ hfar hq
          omega
      rw [if_pos hmiss]
      by_cases hp : finder.periodic = true
      · rw [if_pos hp, sub_eq hperiod, ok_bind]
        obtain ⟨hhas, hlt⟩ := hperiodic hp
        refine ⟨_, rfl, fun h => (nomatch h), fun next memory' h => ?_⟩
        obtain ⟨rfl, rfl⟩ := Prod.mk.inj (some.inj h)
        refine ⟨by omega, by omega, hnone, by omega, fun k hk => ?_⟩
        have hthere := hright (k + finder.period) (by omega) (by omega)
        rw [show position + (k + finder.period) = position + finder.period + k by omega] at hthere
        exact hthere.trans (hhas k (zero_le k) (by omega))
      · rw [if_neg hp]
        refine ⟨_, rfl, fun h => (nomatch h), fun next memory' h => ?_⟩
        obtain ⟨rfl, rfl⟩ := Prod.mk.inj (some.inj h)
        exact ⟨by omega, by omega, hnone, remembers_zero⟩
    · rw [if_neg hmiss]
      refine ⟨none, rfl, fun _ => occursAt_iff.mpr ⟨hposition, fun k hk => ?_⟩,
        fun next memory' h => nomatch h⟩
      by_cases hk' : finder.split ≤ k
      · exact hright k hk' hk
      · by_cases hl : left ≤ k
        · exact hequal' k hl (by omega)
        · exact hknown k (by omega)

/-! ### The loops -/

/-- What a loop from `start` says of the text. -/
def Window.Right (needle text : Bytes) (start : ℕ) : Window → Prop
  | .found position => start ≤ position ∧ OccursAt needle text position ∧
      NoneIn needle text start position
  | .missing => ∀ p, start ≤ p → ¬ OccursAt needle text p
  | .resume position => start ≤ position ∧ position ≤ text.length ∧
      NoneIn needle text start position

/-- A loop from `start` is at `position`: no occurrence starts before. -/
structure Reached (needle text : Bytes) (start position memory : ℕ) : Prop where
  le : start ≤ position
  stop : position ≤ text.length
  none : NoneIn needle text start position
  memory : Remembers needle text position memory

theorem Reached.refl (h : position ≤ text.length) : Reached needle text position position 0 :=
  ⟨le_rfl, h, fun p hp hp' => by omega, remembers_zero⟩

/-- No occurrence starts where the needle no longer fits. -/
theorem Reached.missing {memory : ℕ} (h : Reached needle text start position memory)
    (hfit : ¬ position + needle.length ≤ text.length) : Window.missing.Right needle text start := by
  intro p hp hoccurs
  by_cases hlt : p < position
  · exact h.none p hp hlt hoccurs
  · have hle := hoccurs.1
    omega

/-- `bytes_index_pair` finds the first place of the two bytes. -/
theorem bytesIndexPair_eq (first last : UInt8) (gap : ℕ) {index : ℕ} (hindex : index ≤ text.length) :
    ∃ r, bytesIndexPair text first last gap index = .ok r ∧ index ≤ r ∧ r ≤ text.length ∧
      (r = text.length ∨ r + gap < text.length) ∧
      ∀ k, index ≤ k → k < r → k + gap < text.length →
        ¬ (text[k]? = some first ∧ text[k + gap]? = some last) := by
  induction hn : text.length - index generalizing index with
  | zero =>
    refine ⟨text.length, ?_, hindex, le_rfl, .inl rfl, fun k hk hk' => by omega⟩
    rw [bytesIndexPair, dif_neg (by omega)]
  | succ n ih =>
    by_cases hgo : index < text.length ∧ gap < text.length - index
    · have hfar : index + gap < text.length := by omega
      rw [bytesIndexPair, dif_pos hgo, bytesAt_eq hgo.1, bytesAt_eq hfar, ok_bind, ok_bind]
      by_cases hpair : text[index] = first ∧ text[index + gap] = last
      · rw [if_pos hpair]
        exact ⟨index, rfl, le_rfl, hindex, .inr hfar, fun k hk hk' => by omega⟩
      · rw [if_neg hpair]
        obtain ⟨r, hrun, hge, hle, hend, hnone⟩ :=
          ih (show index + 1 ≤ text.length by omega) (by omega)
        refine ⟨r, hrun, by omega, hle, hend, fun k hk hk' hfit => ?_⟩
        obtain rfl | hgt := eq_or_lt_of_le hk
        · rw [getElem?_eq_getElem hgo.1, getElem?_eq_getElem hfar, some_inj, some_inj]
          exact hpair
        · exact hnone k hgt hk' hfit
    · rw [bytesIndexPair, dif_neg hgo]
      exact ⟨text.length, rfl, hindex, le_rfl, .inl rfl, fun k hk hk' hfit => by omega⟩

/-- **`pair_windows` ends**; where it hands over, it has gone on. -/
theorem pairWindows_ends (h : Prepared needle finder) (hsize : 2 ≤ needle.length)
    (hfit : start + needle.length ≤ text.length) {turns : ℕ} (hturns : text.length < turns) :
    ∃ w, pairWindows turns finder text start = .ok w ∧ w.Right needle text start ∧
      ∀ position, w = .resume position → start < position := by
  have hneedle := h.needle_eq
  have hfirst : 0 < needle.length := by omega
  have hlast : needle.length - 1 < needle.length := by omega
  unfold pairWindows
  rw [hneedle, bytesAt_eq hfirst, ok_bind, sub_eq (by omega), ok_bind, bytesAt_eq hlast, ok_bind]
  refine turning_ends (fun s : Pairing => Reached needle text start s.position s.memory ∧
      (s.calls = 0 ∨ start < s.position))
    (fun w : Window => w.Right needle text start ∧
      ∀ position, w = .resume position → start < position)
    (fun s : Pairing => text.length - s.position) ?_
    ⟨Reached.refl (by omega), .inl rfl⟩ (by dsimp only; omega)
  rintro ⟨position, memory, calls, skipped⟩ ⟨hreached, -⟩
  unfold pairTurn
  dsimp only at hreached ⊢
  rw [hneedle]
  by_cases hgo : position + needle.length ≤ text.length
  · rw [if_pos hgo, sub_eq (by omega), ok_bind]
    obtain ⟨candidate, hrun, hge, hle, hend, hnone⟩ :=
      bytesIndexPair_eq needle[0] needle[needle.length - 1] (needle.length - 1) hreached.stop
    rw [hrun, ok_bind, sub_eq (by omega), ok_bind]
    -- An occurrence starts and ends with the needle's bytes.
    have hskip : NoneIn needle text position candidate := by
      intro p hp hp' ⟨hin, hbytes⟩
      refine hnone p hp hp' (by omega) ⟨?_, ?_⟩
      · exact (hbytes 0 hfirst).trans (getElem?_eq_getElem hfirst)
      · exact (hbytes (needle.length - 1) hlast).trans (getElem?_eq_getElem hlast)
    have hreached' : Reached needle text start candidate
        (if candidate ≠ position then 0 else memory) := by
      refine ⟨by have := hreached.le; omega, hle, hreached.none.trans hskip, ?_⟩
      split
      · exact remembers_zero
      · next hsame =>
        obtain rfl := not_not.mp hsame
        exact hreached.memory
    by_cases hout : candidate ≠ position ∧ candidate + needle.length > text.length
    · rw [if_pos hout]
      refine ⟨_, rfl, fun s' h => (nomatch h), fun w hw => ?_⟩
      obtain rfl := Sum.inr.inj hw
      exact ⟨hreached'.missing (by omega), fun position h => nomatch h⟩
    · have hfit' : candidate + needle.length ≤ text.length := by
        by_contra hcontra
        exact hout ⟨by omega, by omega⟩
      obtain ⟨r, htry, hfound, hnext⟩ := tryWindow_eq h hfit' hreached'.memory
      rw [if_neg hout, htry, ok_bind]
      cases r with
      | none =>
        refine ⟨_, rfl, fun s' h => (nomatch h), fun w hw => ?_⟩
        obtain rfl := Sum.inr.inj hw
        exact ⟨⟨hreached'.le, hfound rfl, hreached'.none⟩, fun position h => nomatch h⟩
      | some next =>
        obtain ⟨next, memory'⟩ := next
        obtain ⟨hlt, hle', hnone', hmemory⟩ := hnext next memory' rfl
        have hle'' := hreached'.le
        have hreached'' : Reached needle text start next memory' :=
          ⟨by omega, by omega, hreached'.none.trans hnone', hmemory⟩
        dsimp only
        split
        · split
          · refine ⟨_, rfl, fun s' h => (nomatch h), fun w hw => ?_⟩
            obtain rfl := Sum.inr.inj hw
            refine ⟨⟨by omega, by omega, hreached''.none⟩, fun position' h => ?_⟩
            obtain rfl := Window.resume.inj h
            omega
          · refine ⟨_, rfl, fun s' hs' => ?_, fun w hw => nomatch hw⟩
            obtain rfl := Sum.inl.inj hs'
            exact ⟨⟨hreached'', .inl rfl⟩, by dsimp only; omega⟩
        · refine ⟨_, rfl, fun s' hs' => ?_, fun w hw => nomatch hw⟩
          obtain rfl := Sum.inl.inj hs'
          exact ⟨⟨hreached'', .inr (by dsimp only; omega)⟩, by dsimp only; omega⟩
  · rw [if_neg hgo]
    refine ⟨_, rfl, fun s' h => (nomatch h), fun w hw => ?_⟩
    obtain rfl := Sum.inr.inj hw
    exact ⟨hreached.missing hgo, fun position h => nomatch h⟩

/-- **`plain_windows` ends**, without a step back. -/
theorem plainWindows_ends (h : Prepared needle finder) (hsize : 2 ≤ needle.length)
    (hstart : start ≤ text.length) (stop : ℕ) {turns : ℕ} (hturns : text.length < turns) :
    ∃ w, plainWindows turns finder text start stop = .ok w ∧ w.Right needle text start := by
  have hneedle := h.needle_eq
  unfold plainWindows
  rw [hneedle, sub_eq (by omega), ok_bind]
  generalize hbound : (if stop + needle.length - 1 < text.length then stop + needle.length - 1
    else text.length) = bound
  have hbound' : bound ≤ text.length := by
    split at hbound <;> omega
  refine turning_ends (fun s : ℕ × ℕ => Reached needle text start s.1 s.2)
    (fun w : Window => w.Right needle text start) (fun s : ℕ × ℕ => text.length - s.1) ?_
    (Reached.refl hstart) (by dsimp only; omega)
  rintro ⟨position, memory⟩ hreached
  unfold plainTurn
  dsimp only at hreached ⊢
  rw [hneedle]
  have hle := hreached.le
  by_cases hgo : position + needle.length ≤ bound
  · have hfit : position + needle.length ≤ text.length := by omega
    have htail : position + needle.length - 1 < text.length := by omega
    rw [if_pos hgo, sub_eq (by omega), ok_bind, bytesAt_eq htail, ok_bind]
    by_cases hskip : (finder.byteset >>> byteBit text[position + needle.length - 1]) &&& 1#64 = 0#64
    · -- No window over this byte is an occurrence.
      have hnone : NoneIn needle text position (position + needle.length) := by
        rintro p hp hp' ⟨hin, hbytes⟩
        have hlt : position + needle.length - 1 - p < needle.length := by omega
        have hbyte := hbytes _ hlt
        rw [show p + (position + needle.length - 1 - p) = position + needle.length - 1 by omega,
          getElem?_eq_getElem htail, getElem?_eq_getElem hlt, some_inj] at hbyte
        exact h.byteset _ (hbyte ▸ getElem_mem hlt) hskip
      rw [if_pos hskip]
      refine ⟨_, rfl, fun s' hs' => ?_, fun w hw => nomatch hw⟩
      obtain rfl := Sum.inl.inj hs'
      exact ⟨⟨by dsimp only; omega, hfit, hreached.none.trans hnone, remembers_zero⟩,
        by dsimp only; omega⟩
    · obtain ⟨r, htry, hfound, hnext⟩ := tryWindow_eq h hfit hreached.memory
      rw [if_neg hskip, htry, ok_bind]
      cases r with
      | none =>
        refine ⟨_, rfl, fun s' h => (nomatch h), fun w hw => ?_⟩
        obtain rfl := Sum.inr.inj hw
        exact ⟨hle, hfound rfl, hreached.none⟩
      | some next =>
        obtain ⟨next, memory'⟩ := next
        obtain ⟨hlt, hle', hnone, hmemory⟩ := hnext next memory' rfl
        refine ⟨_, rfl, fun s' hs' => ?_, fun w hw => nomatch hw⟩
        obtain rfl := Sum.inl.inj hs'
        exact ⟨⟨by dsimp only; omega, by dsimp only; omega, hreached.none.trans hnone, hmemory⟩,
          by dsimp only; omega⟩
  · rw [if_neg hgo]
    refine ⟨_, rfl, fun s' h => (nomatch h), fun w hw => ?_⟩
    obtain rfl := Sum.inr.inj hw
    split
    · exact hreached.missing (by omega)
    · exact ⟨hle, hreached.stop, hreached.none⟩

/-! ### The search -/

/-- What a search for the first occurrence from `start` on says. -/
def IsFirst (needle text : Bytes) (start : ℕ) : Option ℕ → Prop
  | some position => IsLeast {p | start ≤ p ∧ OccursAt needle text p} position
  | none => ∀ p, start ≤ p → ¬ OccursAt needle text p

theorem isFirst_some (hle : start ≤ position) (hoccurs : OccursAt needle text position)
    (hnone : NoneIn needle text start position) : IsFirst needle text start (some position) := by
  refine ⟨⟨hle, hoccurs⟩, fun p hp => ?_⟩
  by_contra hlt
  exact hnone p hp.1 (not_le.mp hlt) hp.2

/-- `bytes_index` finds the first place of a byte. -/
theorem bytesIndex_eq (byte : UInt8) {index : ℕ} (hindex : index ≤ text.length) :
    ∃ r, bytesIndex text byte index = .ok r ∧ index ≤ r ∧
      (r < text.length → text[r]? = some byte) ∧
      ∀ k, index ≤ k → k < r → k < text.length → text[k]? ≠ some byte := by
  induction hn : text.length - index generalizing index with
  | zero =>
    refine ⟨text.length, ?_, hindex, fun h => absurd h (lt_irrefl _), fun k hk hk' hk'' => by omega⟩
    rw [bytesIndex, dif_neg (by omega)]
  | succ n ih =>
    have hlt : index < text.length := by omega
    rw [bytesIndex, dif_pos hlt, bytesAt_eq hlt, ok_bind]
    by_cases hfound : text[index] = byte
    · rw [if_pos hfound]
      refine ⟨index, rfl, le_rfl, fun _ => ?_, fun k hk hk' => by omega⟩
      rw [getElem?_eq_getElem hlt, hfound]
    · rw [if_neg hfound]
      obtain ⟨r, hrun, hge, hbyte, hnone⟩ := ih (show index + 1 ≤ text.length by omega) (by omega)
      refine ⟨r, hrun, by omega, hbyte, fun k hk hk' hk'' => ?_⟩
      obtain rfl | hgt := eq_or_lt_of_le hk
      · rw [getElem?_eq_getElem hlt, Ne, some_inj]
        exact hfound
      · exact hnone k hgt hk' hk''

theorem searchFrom_one (hneedle : finder.needle = needle) (hsize : needle.length = 1)
    (hstart : start ≤ text.length) :
    ∃ r, (do
        let found ← bytesIndex text (← bytesAt finder.needle 0) start
        return if found < text.length then some found else none) = Except.ok r ∧
      IsFirst needle text start r := by
  have hfirst : 0 < needle.length := by omega
  obtain ⟨r, hrun, hge, hbyte, hnone⟩ := bytesIndex_eq needle[0] hstart
  have hoccurs : ∀ p, OccursAt needle text p ↔ p < text.length ∧ text[p]? = some needle[0] := by
    intro p
    unfold OccursAt
    rw [hsize]
    refine and_congr_right fun _ => ⟨fun h => ?_, fun h k hk => ?_⟩
    · exact (h 0 Nat.one_pos).trans (getElem?_eq_getElem hfirst)
    · obtain rfl : k = 0 := by omega
      exact h.trans (getElem?_eq_getElem hfirst).symm
  rw [hneedle, bytesAt_eq hfirst, ok_bind, hrun, ok_bind]
  by_cases hlt : r < text.length
  · rw [if_pos hlt]
    refine ⟨_, rfl, isFirst_some hge ((hoccurs r).mpr ⟨hlt, hbyte hlt⟩) fun p hp hp' h => ?_⟩
    obtain ⟨hin, hp''⟩ := (hoccurs p).mp h
    exact hnone p hp hp' hin hp''
  · rw [if_neg hlt]
    refine ⟨_, rfl, fun p hp h => ?_⟩
    obtain ⟨hin, hp'⟩ := (hoccurs p).mp h
    exact hnone p hp (by omega) hin hp'

/-- **`search_from` ends** and finds the first occurrence at or after `start`. -/
theorem searchFrom_ends (hneedle : finder.needle = needle)
    (h : 2 ≤ needle.length → Prepared needle finder) {turns : ℕ} (hturns : text.length < turns) :
    ∃ r, searchFrom turns finder text start = .ok r ∧ IsFirst needle text start r := by
  unfold searchFrom
  dsimp only
  rw [hneedle]
  by_cases hout : start > text.length ∨ needle.length > text.length - start
  · rw [if_pos hout]
    refine ⟨none, rfl, fun p hp hoccurs => ?_⟩
    have hle := hoccurs.1
    omega
  rw [if_neg hout]
  rw [not_or] at hout
  by_cases hzero : needle.length = 0
  · rw [if_pos hzero]
    refine ⟨_, rfl, isFirst_some le_rfl ⟨by omega, fun k hk => by omega⟩ fun p hp hp' => by omega⟩
  rw [if_neg hzero]
  by_cases hone : needle.length = 1
  · rw [if_pos hone, ← hneedle]
    exact hneedle ▸ searchFrom_one hneedle hone (by omega)
  rw [if_neg hone]
  have hsize : 2 ≤ needle.length := by omega
  refine turning_ends (fun position : ℕ => Reached needle text start position 0)
    (IsFirst needle text start) (fun position => text.length - position) ?_
    (Reached.refl (by omega)) (by omega)
  intro position hreached
  have hle := hreached.le
  unfold searchTurn
  rw [hneedle]
  by_cases hgo : position + needle.length ≤ text.length
  · obtain ⟨w, hpair, hright, hon⟩ := pairWindows_ends (h hsize) hsize hgo hturns
    rw [if_pos hgo, hpair, ok_bind]
    cases w with
    | found found =>
      obtain ⟨hge, hoccurs, hnone⟩ := hright
      refine ⟨_, rfl, fun s' h => (nomatch h), fun r hr => ?_⟩
      obtain rfl := Sum.inr.inj hr
      exact isFirst_some (by omega) hoccurs (hreached.none.trans hnone)
    | missing =>
      refine ⟨_, rfl, fun s' h => (nomatch h), fun r hr => ?_⟩
      obtain rfl := Sum.inr.inj hr
      intro p hp hoccurs
      by_cases hlt : p < position
      · exact hreached.none p hp hlt hoccurs
      · exact hright p (by omega) hoccurs
    | resume resumed =>
      obtain ⟨hge, hstop, hnone⟩ := hright
      have hgt := hon resumed rfl
      have hreached' : NoneIn needle text start resumed := hreached.none.trans hnone
      obtain ⟨w, hplain, hright⟩ := plainWindows_ends (h hsize) hsize hstop (resumed + 4096) hturns
      dsimp only
      rw [hplain, ok_bind]
      cases w with
      | found found =>
        obtain ⟨hge', hoccurs, hnone'⟩ := hright
        refine ⟨_, rfl, fun s' h => (nomatch h), fun r hr => ?_⟩
        obtain rfl := Sum.inr.inj hr
        exact isFirst_some (by omega) hoccurs (hreached'.trans hnone')
      | missing =>
        refine ⟨_, rfl, fun s' h => (nomatch h), fun r hr => ?_⟩
        obtain rfl := Sum.inr.inj hr
        intro p hp hoccurs
        by_cases hlt : p < resumed
        · exact hreached' p hp hlt hoccurs
        · exact hright p (by omega) hoccurs
      | resume next =>
        obtain ⟨hge', hstop', hnone'⟩ := hright
        refine ⟨_, rfl, fun s' hs' => ?_, fun r hr => nomatch hr⟩
        obtain rfl := Sum.inl.inj hs'
        exact ⟨⟨by omega, hstop', hreached'.trans hnone', remembers_zero⟩, by omega⟩
  · rw [if_neg hgo]
    refine ⟨_, rfl, fun s' h => (nomatch h), fun r hr => ?_⟩
    obtain rfl := Sum.inr.inj hr
    exact hreached.missing hgo

end HdLang.Search
