import HdLang.Lib.Words
import HdLang.Search.Model

/-!
# The searcher of a needle

`maximal_suffix` finds the maximal suffix of the needle and its least period, within a bounded number of
turns (`maximalSuffix_ends`). So `searcher` cuts the needle at a critical position and shifts by what no
match can be nearer than (`searcher_prepared`).
-/

namespace HdLang.Search

open Words List Nat

/-- The byte at an index, as a number. -/
def letter (text : Bytes) (i : ℕ) : ℕ := (text.getD i 0).toNat

/-- `needle` occurs in `text` at `position`. -/
def OccursAt (needle text : Bytes) (position : ℕ) : Prop :=
  position + needle.length ≤ text.length ∧
    ∀ k < needle.length, text[position + k]? = needle[k]?

variable {needle text : Bytes} {i j : ℕ}

theorem sub_eq {a b : ℕ} (h : b ≤ a) : sub a b = .ok (a - b) := if_pos h

/-! ### Reads -/

theorem bytesAt_eq (h : i < text.length) : bytesAt text i = .ok text[i] := by
  unfold bytesAt
  rw [getElem?_eq_getElem h]

theorem letter_eq (h : i < text.length) : letter text i = text[i].toNat := by
  unfold letter
  rw [getD_eq_getElem?_getD, getElem?_eq_getElem h, Option.getD_some]

theorem getElem_eq_iff (hi : i < needle.length) (hj : j < text.length) :
    needle[i] = text[j] ↔ letter needle i = letter text j := by
  rw [letter_eq hi, letter_eq hj, UInt8.toNat_inj]

/-- An occurrence is a match of the letters inside the text. -/
theorem occursAt_iff {position : ℕ} :
    OccursAt needle text position ↔ position + needle.length ≤ text.length ∧
      MatchesAt (letter needle) needle.length (letter text) position := by
  refine and_congr_right fun hle => forall₂_congr fun k hk => ?_
  have hk' : position + k < text.length := by omega
  rw [getElem?_eq_getElem hk', getElem?_eq_getElem hk, Option.some_inj, getElem_eq_iff hk' hk]

/-! ### The maximal suffix -/

/-- **`maximal_suffix` ends** and finds the start and the least period of the maximal suffix. -/
theorem maximalSuffix_ends (reversed : Bool) (h : 0 < needle.length) {turns : ℕ}
    (hturns : 2 * needle.length < turns) :
    ∃ s p, maximalSuffix turns needle reversed = .ok (s, p) ∧
      Maximal reversed (letter needle) needle.length s ∧
      LeastPeriod (letter needle) needle.length s p := by
  suffices hrun : ∃ r, maximalSuffix turns needle reversed = .ok r ∧
      (Maximal reversed (letter needle) needle.length r.1 ∧
        LeastPeriod (letter needle) needle.length r.1 r.2) by
    obtain ⟨⟨s, p⟩, hr, hs⟩ := hrun
    exact ⟨s, p, hr, hs⟩
  refine turning_ends
    (fun s : Scan =>
      Scanning reversed (letter needle) needle.length s.left s.right s.offset s.period)
    (fun r : ℕ × ℕ => Maximal reversed (letter needle) needle.length r.1 ∧
      LeastPeriod (letter needle) needle.length r.1 r.2)
    (fun s : Scan => 2 * needle.length - (s.left + s.right + s.offset)) ?_ (Scanning.start h)
    (by dsimp only; omega)
  intro s hs
  have hlt := hs.offset_lt
  have hle := hs.left_le
  have hend := hs.le
  unfold maximalSuffixTurn
  by_cases hgo : s.right + s.offset < needle.length
  · have hleft : s.left + s.offset < needle.length := by omega
    rw [if_pos hgo, bytesAt_eq hgo, bytesAt_eq hleft, ok_bind, ok_bind]
    have ha := letter_eq hgo
    have hb := letter_eq hleft
    by_cases hbelow : (needle[s.right + s.offset] < needle[s.left + s.offset] ∧ reversed = false) ∨
        (needle[s.right + s.offset] > needle[s.left + s.offset] ∧ reversed = true)
    · have hbelow' : Below reversed (letter needle (s.right + s.offset))
          (letter needle (s.left + s.offset)) := by
        rw [ha, hb]
        obtain ⟨hless, rfl⟩ | ⟨hless, rfl⟩ := hbelow
        · exact UInt8.lt_iff_toNat_lt.mp hless
        · exact UInt8.lt_iff_toNat_lt.mp hless
      rw [if_pos hbelow]
      dsimp only
      rw [sub_eq (by omega), ok_bind]
      refine ⟨_, rfl, fun s' hs' => ?_, fun b hb => nomatch hb⟩
      obtain rfl := Sum.inl.inj hs'
      exact ⟨hs.below hgo hbelow', by dsimp only; omega⟩
    · rw [if_neg hbelow]
      by_cases heq : needle[s.right + s.offset] = needle[s.left + s.offset]
      · rw [if_pos heq]
        rw [getElem_eq_iff hgo hleft] at heq
        obtain ⟨hwhole, hpart⟩ := hs.equal hgo heq
        by_cases hcopy : s.offset + 1 = s.period
        · rw [if_pos hcopy]
          refine ⟨_, rfl, fun s' hs' => ?_, fun b hb => nomatch hb⟩
          obtain rfl := Sum.inl.inj hs'
          exact ⟨hwhole hcopy, by dsimp only; omega⟩
        · rw [if_neg hcopy]
          refine ⟨_, rfl, fun s' hs' => ?_, fun b hb => nomatch hb⟩
          obtain rfl := Sum.inl.inj hs'
          exact ⟨hpart hcopy, by dsimp only; omega⟩
      · rw [if_neg heq]
        have habove : Below reversed (letter needle (s.left + s.offset))
            (letter needle (s.right + s.offset)) := by
          rw [getElem_eq_iff hgo hleft] at heq
          rw [not_or, gt_iff_lt, UInt8.lt_iff_toNat_lt, UInt8.lt_iff_toNat_lt, ← ha, ← hb] at hbelow
          cases reversed with
          | false =>
            have hno : ¬ letter needle (s.right + s.offset) < letter needle (s.left + s.offset) :=
              fun hless => hbelow.1 ⟨hless, rfl⟩
            exact lt_of_le_of_ne (not_lt.mp hno) (Ne.symm heq)
          | true =>
            have hno : ¬ letter needle (s.left + s.offset) < letter needle (s.right + s.offset) :=
              fun hless => hbelow.2 ⟨hless, rfl⟩
            exact lt_of_le_of_ne (not_lt.mp hno) heq
        refine ⟨_, rfl, fun s' hs' => ?_, fun b hb => nomatch hb⟩
        obtain rfl := Sum.inl.inj hs'
        exact ⟨hs.above hgo habove, by dsimp only; omega⟩
  · rw [if_neg hgo]
    refine ⟨_, rfl, fun s' hs' => (nomatch hs'), fun b hb => ?_⟩
    obtain rfl := Sum.inr.inj hb
    exact hs.finish (by omega)

/-! ### The byte set -/

theorem byteBit_lt (byte : UInt8) : byteBit byte < 64 := by
  unfold byteBit
  rw [UInt8.toNat_and]
  exact lt_of_le_of_lt and_le_right (by decide)

theorem and_one_ne_zero {set : BitVec 64} {k : ℕ} (h : set.getLsbD k = true) :
    (set >>> k) &&& 1#64 ≠ 0#64 := by
  intro hzero
  have hbit := congrArg (fun v => v.getLsbD 0) hzero
  simp [h] at hbit

theorem getLsbD_foldl {set : BitVec 64} {k : ℕ} (h : set.getLsbD k = true) (needle : Bytes) :
    (needle.foldl (fun byteset byte => byteset ||| (1#64 <<< byteBit byte)) set).getLsbD k =
      true := by
  induction needle generalizing set with
  | nil => exact h
  | cons b needle ih => exact ih (by rw [BitVec.getLsbD_or, h, Bool.true_or])

theorem getLsbD_byteset {byte : UInt8} (h : byte ∈ needle) (set : BitVec 64) :
    (needle.foldl (fun byteset byte => byteset ||| (1#64 <<< byteBit byte)) set).getLsbD
      (byteBit byte) = true := by
  induction needle generalizing set with
  | nil => exact absurd h not_mem_nil
  | cons b needle ih =>
    obtain rfl | htail := mem_cons.mp h
    · refine getLsbD_foldl ?_ needle
      simp [byteBit_lt byte]
    · exact ih htail _

/-! ### The test of the period -/

theorem bytesMismatchFrom_eq {left right : Bytes} {shorter : ℕ} (hl : shorter ≤ left.length)
    (hr : shorter ≤ right.length) {index : ℕ} (hindex : index ≤ shorter) :
    ∃ r, bytesMismatchFrom left right shorter index = .ok r ∧ r ≤ shorter ∧
      (∀ k, index ≤ k → k < r → letter left k = letter right k) ∧
      (r < shorter → letter left r ≠ letter right r) := by
  induction hn : shorter - index generalizing index with
  | zero =>
    obtain rfl : index = shorter := by omega
    refine ⟨index, ?_, le_rfl, fun k hk hk' => by omega, fun h => by omega⟩
    rw [bytesMismatchFrom, dif_neg (lt_irrefl index)]
  | succ n ih =>
    have hlt : index < shorter := by omega
    have hleft : index < left.length := by omega
    have hright : index < right.length := by omega
    rw [bytesMismatchFrom, dif_pos hlt, bytesAt_eq hleft, bytesAt_eq hright, ok_bind, ok_bind]
    by_cases hsame : left[index] = right[index]
    · rw [if_neg (not_not.mpr hsame)]
      rw [getElem_eq_iff hleft hright] at hsame
      obtain ⟨r, hrun, hle, hequal, hdiffer⟩ := ih (show index + 1 ≤ shorter by omega) (by omega)
      refine ⟨r, hrun, hle, fun k hk hk' => ?_, hdiffer⟩
      obtain rfl | hgt := eq_or_lt_of_le hk
      · exact hsame
      · exact hequal k hgt hk'
    · rw [if_pos hsame]
      rw [getElem_eq_iff hleft hright] at hsame
      exact ⟨index, rfl, hlt.le, fun k hk hk' => by omega, fun _ => hsame⟩

/-- `bytes_match` on the start of the needle tells whether that is there again at `period`. -/
theorem bytesMatch_eq {split period : ℕ} (h : split + period ≤ needle.length) :
    (do bytesMatch needle (← bytesSlice needle 0 split) period) =
      .ok (decide (∀ k < split, letter needle (k + period) = letter needle k)) := by
  have hborder : bytesSlice needle 0 split = .ok (needle.take split) := by
    unfold bytesSlice
    rw [if_pos ⟨Nat.zero_le _, by omega⟩, drop_zero, Nat.sub_zero]
  have hlength : (needle.take split).length = split := by
    rw [length_take]
    omega
  have hslice : bytesSlice needle period (period + split) =
      .ok ((needle.drop period).take split) := by
    unfold bytesSlice
    rw [if_pos ⟨by omega, by omega⟩, Nat.add_sub_cancel_left]
  have hlength' : ((needle.drop period).take split).length = split := by
    rw [length_take, length_drop]
    omega
  obtain ⟨r, hrun, hle, hequal, hdiffer⟩ :=
    bytesMismatchFrom_eq hlength'.ge hlength.ge (Nat.zero_le split)
  rw [hborder, ok_bind]
  unfold bytesMatch
  dsimp only
  rw [hlength, hslice, ok_bind]
  unfold bytesMismatch
  dsimp only
  rw [hlength, hlength', if_neg (lt_irrefl split), hrun]
  show Except.ok _ = _
  -- The letters of the two slices are those of the needle.
  have hread : ∀ k < split, letter (needle.take split) k = letter needle k ∧
      letter ((needle.drop period).take split) k = letter needle (k + period) := by
    intro k hk
    unfold letter
    rw [getD_eq_getElem?_getD, getD_eq_getElem?_getD, getD_eq_getElem?_getD, getD_eq_getElem?_getD,
      getElem?_take_of_lt hk, getElem?_take_of_lt hk,
      getElem?_drop, Nat.add_comm period k]
    exact ⟨rfl, rfl⟩
  congr 1
  apply decide_eq_decide.mpr
  constructor
  · intro hr k hk
    obtain ⟨hfirst, hsecond⟩ := hread k hk
    have hsame := hequal k (Nat.zero_le k) (by omega)
    rw [hfirst, hsecond] at hsame
    exact hsame
  · intro hall
    by_contra hne
    have hlt : r < split := by omega
    obtain ⟨hfirst, hsecond⟩ := hread r hlt
    have hno := hdiffer hlt
    rw [hfirst, hsecond] at hno
    exact hno (hall r hlt)

/-! ### The searcher -/

/-- What a searcher of `needle` promises to the window loops. -/
structure Prepared (needle : Bytes) (finder : Searcher) : Prop where
  needle_eq : finder.needle = needle
  split_lt : finder.split < needle.length
  critical : Critical (letter needle) needle.length finder.split
  period_pos : 0 < finder.period
  period_le : finder.period ≤ needle.length
  /-- No period past the cut is shorter than the shift. -/
  shift : ∀ q, finder.split < q → HasPeriod (letter needle) needle.length q → finder.period ≤ q
  periodic : finder.periodic = true →
    HasPeriod (letter needle) needle.length finder.period ∧ finder.split < finder.period
  byteset : ∀ byte ∈ needle, (finder.byteset >>> byteBit byte) &&& 1#64 ≠ 0#64

/-- The needle cut at a critical position, where the right part has a least period. -/
theorem prepared_of_critical {split period : ℕ} {periodic : Bool} (hsplit : split < needle.length)
    (hcritical : Critical (letter needle) needle.length split)
    (hleast : LeastPeriod (letter needle) needle.length split period)
    (hperiodic : periodic =
      decide (∀ k < split, letter needle (k + period) = letter needle k)) :
    Prepared needle ⟨needle, split,
      if periodic then period
      else (if split > needle.length - split then split else needle.length - split) + 1, periodic,
      needle.foldl (fun byteset byte => byteset ||| (1#64 <<< byteBit byte)) 0⟩ := by
  have hpos := hleast.pos
  have hle := hleast.le
  have hbytes : ∀ byte ∈ needle, ((needle.foldl
      (fun byteset byte => byteset ||| (1#64 <<< byteBit byte)) 0) >>> byteBit byte) &&& 1#64 ≠
        0#64 := fun byte hbyte => and_one_ne_zero (getLsbD_byteset hbyte 0)
  -- The test says whether the right part's period is one of the whole needle.
  have hiff : (∀ k < split, letter needle (k + period) = letter needle k) ↔
      HasPeriod (letter needle) needle.length period := by
    constructor
    · intro hall k _ hk
      by_cases hks : k < split
      · exact hall k hks
      · exact hleast.period k (by omega) hk
    · exact fun hperiod k hk => hperiod k (zero_le k) (by omega)
  cases periodic with
  | true =>
    have hperiod := hiff.mp (of_decide_eq_true hperiodic.symm)
    refine ⟨rfl, hsplit, hcritical, hpos, by dsimp only; rw [if_pos rfl]; omega, fun q hq hq' => ?_,
      fun _ => ⟨hperiod, hcritical.lt_period hpos hperiod⟩, hbytes⟩
    dsimp only at hq ⊢
    rw [if_pos rfl]
    exact hleast.least q (by omega) hq'.from
  | false =>
    have hperiod := mt hiff.mpr (of_decide_eq_false hperiodic.symm)
    have hsplit' : 0 < split := by
      by_contra hzero
      refine hperiod fun k _ hk => hleast.period k (by omega) hk
    rw [if_neg Bool.false_ne_true]
    have hmax : (if split > needle.length - split then split else needle.length - split) + 1 ≤
        needle.length := by
      split <;> omega
    refine ⟨rfl, hsplit, hcritical, succ_pos _, hmax, fun q hq hq' => ?_,
      fun h => absurd h Bool.false_ne_true, hbytes⟩
    have hlong : needle.length < split + q := by
      by_contra hshort
      exact hperiod (hcritical.least_hasPeriod hleast (by omega) (by omega) hq')
    dsimp only at hq ⊢
    split <;> omega

/-- **`searcher` ends**, and cuts a needle of two bytes or more at a critical position. -/
theorem searcher_prepared {turns : ℕ} (hturns : 2 * needle.length < turns) :
    ∃ finder, searcher turns needle = .ok finder ∧ finder.needle = needle ∧
      (2 ≤ needle.length → Prepared needle finder) := by
  unfold searcher
  dsimp only
  by_cases hsize : needle.length < 2
  · rw [if_pos hsize]
    exact ⟨_, rfl, rfl, fun h => by omega⟩
  · obtain ⟨low, lowPeriod, hlow, hlowMax, hlowPeriod⟩ :=
      maximalSuffix_ends false (show 0 < needle.length by omega) hturns
    obtain ⟨high, highPeriod, hhigh, hhighMax, hhighPeriod⟩ :=
      maximalSuffix_ends true (show 0 < needle.length by omega) hturns
    rw [if_neg hsize, hlow, hhigh, ok_bind, ok_bind]
    dsimp only
    -- The later of the two starts, with its period.
    have hcut : ∃ split period, (if low > high then low else high) = split ∧
        (if low > high then lowPeriod else highPeriod) = period ∧ split < needle.length ∧
        Critical (letter needle) needle.length split ∧
        LeastPeriod (letter needle) needle.length split period := by
      by_cases hlater : low > high
      · refine ⟨low, lowPeriod, if_pos hlater, if_pos hlater, hlowMax.lt, ?_, hlowPeriod⟩
        exact hlowMax.critical hhighMax (le_of_lt hlater)
      · refine ⟨high, highPeriod, if_neg hlater, if_neg hlater, hhighMax.lt, ?_, hhighPeriod⟩
        exact hhighMax.critical hlowMax (not_lt.mp hlater)
    obtain ⟨split, period, hsplit, hperiod, hlt, hcritical, hleast⟩ := hcut
    have hle := hleast.le
    rw [hsplit, hperiod, if_pos hle, bytesMatch_eq hle, ok_bind, sub_eq hlt.le, ok_bind]
    exact ⟨_, rfl, rfl, fun _ => prepared_of_critical hlt hcritical hleast rfl⟩

end HdLang.Search
