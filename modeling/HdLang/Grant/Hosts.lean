import HdLang.Grant.Model

/-!
# Host entries

What an entry of an `Http` or `Net` grant says, and when the check takes it for that. An entry names
a host, or with `*.` every name under one, and may name a port; case does not count. The check drops
a port that it cannot read and compares what stands after `*.` byte for byte, so it takes an entry
for what it says just when the entry has neither (`means_iff`).
-/

namespace HdLang.Grant

open List Option

/-! ### Entries as they are written -/

inductive HostEntry
  | host (h : Text)
  | hostPort (h port : Text)
  | v6 (h : Text)
  | v6Port (h port : Text)
  deriving DecidableEq, Repr

namespace HostEntry

def text : HostEntry → Text
  | .host h => h
  | .hostPort h port => h ++ 58 :: port
  | .v6 h => 91 :: (h ++ [93])
  | .v6Port h port => 91 :: (h ++ 93 :: 58 :: port)

/-- The entry's host part. -/
def hostPart : HostEntry → Text
  | .host h | .hostPort h _ | .v6 h | .v6Port h _ => h

/-- The entry's port part, when it writes one. -/
def portPart : HostEntry → Option Text
  | .host _ | .v6 _ => none
  | .hostPort _ port | .v6Port _ port => some port

/-- The text is of this form and of no other. A text with one colon writes a port; one with more is
an address without brackets. -/
def Proper : HostEntry → Prop
  | .host h => h.head? ≠ some 91 ∧ h.count 58 ≠ 1
  | .hostPort h port => h.head? ≠ some 91 ∧ 58 ∉ h ∧ 58 ∉ port
  | .v6 h => 93 ∉ h
  | .v6Port h _ => 93 ∉ h

instance : DecidablePred Proper := fun e => by
  cases e <;> unfold Proper <;> infer_instance

end HostEntry

/-- In any case of the letters, the host is the host part, or a name under what follows its `*.`. -/
def MatchesHost (hostPart host : Text) : Prop :=
  host.map lower = hostPart.map lower ∨
    ∃ labels suffix, hostPart = 42 :: 46 :: suffix ∧ labels ≠ [] ∧
      host.map lower = (labels ++ 46 :: suffix).map lower

/-- The port part, when there is one, is the number of the port. -/
def MatchesPort (portPart : Option Text) (port : Option ℕ) : Prop :=
  ∀ text, portPart = some text → ∃ n, parsePort text = some n ∧ port = some n

/-- Whether a grant of one entry covers a host and a port. -/
def accepts (key : String) (e host : Text) (port : Option ℕ) : Bool :=
  Grants.coversHost ⟨[(key, .entries [e])]⟩ key host port

/-- The check takes the entry for what it says, and the case of letters makes no difference. -/
structure Means (key : String) (e : HostEntry) : Prop where
  host : ∀ host port, accepts key e.text host port = true → MatchesHost e.hostPart host
  port : ∀ host port, accepts key e.text host port = true → MatchesPort e.portPart port
  request : ∀ host host' port, host.map lower = host'.map lower →
    accepts key e.text host port = accepts key e.text host' port
  entry : ∀ e' host port, List.map lower e' = e.text.map lower →
    accepts key e' host port = accepts key e.text host port

/-- A letter of ASCII. -/
def IsLetter (b : UInt8) : Prop := 65 ≤ b ∧ b ≤ 90 ∨ 97 ≤ b ∧ b ≤ 122

instance : DecidablePred IsLetter := fun _ => inferInstanceAs (Decidable (_ ∨ _))

/-- The port part is a number of a port, and no letter stands after `*.`. -/
def HostEntry.Exact (e : HostEntry) : Prop :=
  (∀ text, e.portPart = some text → parsePort text ≠ none) ∧
    ∀ suffix, e.hostPart = 42 :: 46 :: suffix → ∀ b ∈ suffix, ¬IsLetter b

/-! ### Case -/

/-- The letter in the other case. -/
def flipCase (b : UInt8) : UInt8 :=
  if 65 ≤ b ∧ b ≤ 90 then b + 32 else if 97 ≤ b ∧ b ≤ 122 then b - 32 else b

@[simp] theorem lower_flipCase (b : UInt8) : lower (flipCase b) = lower b := by
  unfold lower flipCase
  grind

theorem flipCase_ne {b : UInt8} (h : IsLetter b) : flipCase b ≠ b := by
  unfold IsLetter at h
  unfold flipCase
  grind

theorem eq_of_lower_eq {b c : UInt8} (h : lower b = lower c) (hc : ¬IsLetter c) : b = c := by
  unfold IsLetter at hc
  unfold lower at h
  grind

theorem lower_eq_iff {b c : UInt8} (hc : ¬IsLetter c) : lower b = c ↔ b = c := by
  have hself : lower c = c := by
    unfold IsLetter at hc
    unfold lower
    grind
  constructor
  · intro h
    exact eq_of_lower_eq (h.trans hself.symm) hc
  · rintro rfl
    exact hself

theorem eq_of_map_lower_eq {s t : Text} (h : s.map lower = t.map lower) (ht : ∀ b ∈ t, ¬IsLetter b)
    : s = t := by
  induction s generalizing t with
  | nil =>
    rw [map_nil] at h
    exact (map_eq_nil_iff.mp h.symm).symm
  | cons b s ih =>
    cases t with
    | nil => simp at h
    | cons c t =>
      rw [map_cons, map_cons, List.cons.injEq] at h
      rw [eq_of_lower_eq h.1 (ht c mem_cons_self), ih h.2 fun d hd => ht d (mem_cons_of_mem c hd)]

/-! ### The parts of an entry -/

section Split

variable {c : UInt8} {e : Text}

theorem mem_map_lower (hc : ¬IsLetter c) : c ∈ e.map lower ↔ c ∈ e := by
  simp only [List.mem_map, lower_eq_iff hc, exists_eq_right]

theorem splitOnce_map_lower (hc : ¬IsLetter c) :
    splitOnce c (e.map lower) =
      (splitOnce c e).map fun p => (p.1.map lower, p.2.map lower) := by
  have hne : ((fun b => decide (b ≠ c)) ∘ lower) = fun b => decide (b ≠ c) := by
    funext b
    simp only [Function.comp, ne_eq, lower_eq_iff hc]
  unfold splitOnce
  simp only [mem_map_lower hc, takeWhile_map, dropWhile_map, hne]
  by_cases h : c ∈ e
  · simp only [if_pos h, map_some, map_drop]
  · simp only [if_neg h, map_none]

theorem rsplitOnce_map_lower (hc : ¬IsLetter c) :
    rsplitOnce c (e.map lower) =
      (rsplitOnce c e).map fun p => (p.1.map lower, p.2.map lower) := by
  unfold rsplitOnce
  rw [← map_reverse, splitOnce_map_lower hc]
  cases splitOnce c e.reverse with
  | none => rfl
  | some p => simp only [map_some, map_reverse]

theorem stripPrefix_map_lower (hc : ¬IsLetter c) :
    stripPrefix [c] (e.map lower) = (stripPrefix [c] e).map (List.map lower) := by
  unfold stripPrefix
  cases e with
  | nil => simp
  | cons b e =>
    by_cases h : b = c
    · simp [h, (lower_eq_iff hc).mpr rfl]
    · have hb : lower b ≠ c := fun hb => h ((lower_eq_iff hc).mp hb)
      simp [Ne.symm h, Ne.symm hb]

/-- An entry's host part and the text of its port. -/
def splitText (entry : Text) : Text × Option Text :=
  match stripPrefix [91] entry with
  | some rest =>
    let (host, after) := (splitOnce 93 rest).getD (rest, [])
    (host, stripPrefix [58] after)
  | none =>
    match rsplitOnce 58 entry with
    | some (host, port) => if 58 ∉ host then (host, some port) else (entry, none)
    | none => (entry, none)

theorem splitHost_eq (entry : Text) :
    splitHost entry = ((splitText entry).1, (splitText entry).2.bind parsePort) := by
  unfold splitHost splitText
  cases stripPrefix [91] entry with
  | some rest => rfl
  | none =>
    cases rsplitOnce 58 entry with
    | none => rfl
    | some p => by_cases h : 58 ∉ p.1 <;> simp only [h, if_false] <;> rfl

theorem splitText_map_lower (e : Text) :
    splitText (e.map lower) =
      ((splitText e).1.map lower, (splitText e).2.map (List.map lower)) := by
  have h91 : ¬IsLetter 91 := by decide
  have h93 : ¬IsLetter 93 := by decide
  have h58 : ¬IsLetter 58 := by decide
  unfold splitText
  rw [stripPrefix_map_lower h91, rsplitOnce_map_lower h58]
  cases stripPrefix [91] e with
  | some rest =>
    simp only [map_some]
    rw [splitOnce_map_lower h93]
    cases splitOnce 93 rest with
    | none => simp [stripPrefix]
    | some p => simp only [map_some, getD_some, stripPrefix_map_lower h58]
  | none =>
    simp only [map_none]
    cases rsplitOnce 58 e with
    | none => rfl
    | some p =>
      simp only [map_some, mem_map_lower h58]
      by_cases h : 58 ∉ p.1 <;> simp [h]

end Split

theorem splitOnce_append {c : UInt8} {h t : Text} (hc : c ∉ h) :
    splitOnce c (h ++ c :: t) = some (h, t) := by
  have htrue : ∀ b ∈ h, decide (b ≠ c) = true := by
    intro b hb
    rw [decide_eq_true_eq]
    rintro rfl
    exact hc hb
  unfold splitOnce
  rw [if_pos (mem_append_right h mem_cons_self), takeWhile_append_of_pos htrue,
    dropWhile_append_of_pos htrue]
  simp

theorem rsplitOnce_append {c : UInt8} {h t : Text} (hc : c ∉ t) :
    rsplitOnce c (h ++ c :: t) = some (h, t) := by
  have hrev : (h ++ c :: t).reverse = t.reverse ++ c :: h.reverse := by simp
  unfold rsplitOnce
  rw [hrev, splitOnce_append (by rwa [mem_reverse])]
  simp

theorem rsplitOnce_of_notMem {c : UInt8} {e : Text} (hc : c ∉ e) : rsplitOnce c e = none := by
  unfold rsplitOnce splitOnce
  rw [if_neg (by rwa [mem_reverse])]
  rfl

theorem exists_last {c : UInt8} {e : Text} (hc : c ∈ e) : ∃ h t, e = h ++ c :: t ∧ c ∉ t := by
  obtain ⟨s, t, hst, hs⟩ := eq_append_cons_of_mem (mem_reverse.mpr hc)
  refine ⟨t.reverse, s.reverse, ?_, by rwa [mem_reverse]⟩
  rw [← reverse_reverse e, hst]
  simp

theorem splitText_text {e : HostEntry} (he : e.Proper) :
    splitText e.text = (e.hostPart, e.portPart) := by
  cases e with
  | host h =>
    obtain ⟨hhead, hcount⟩ := he
    have hstrip : stripPrefix [91] h = none := by
      cases h <;> simp_all [stripPrefix, eq_comm]
    show splitText h = (h, none)
    unfold splitText
    rw [hstrip]
    by_cases h58 : 58 ∈ h
    · obtain ⟨a, b, rfl, hb⟩ := exists_last h58
      rw [rsplitOnce_append hb]
      -- the host would have one colon if there were none before the last
      have ha : 58 ∈ a := by
        by_contra ha
        refine hcount ?_
        rw [count_append, count_cons_self, count_eq_zero.mpr ha, count_eq_zero.mpr hb]
      simp [ha]
    · rw [rsplitOnce_of_notMem h58]
  | hostPort h port =>
    obtain ⟨hhead, hh, hport⟩ := he
    have hstrip : stripPrefix [91] (h ++ 58 :: port) = none := by
      cases h <;> simp_all [stripPrefix, eq_comm]
    show splitText (h ++ 58 :: port) = (h, some port)
    unfold splitText
    rw [hstrip, rsplitOnce_append hport]
    simp [hh]
  | v6 h =>
    show splitText (91 :: (h ++ [93])) = (h, none)
    simp [splitText, stripPrefix, splitOnce_append (show 93 ∉ h from he)]
  | v6Port h port =>
    show splitText (91 :: (h ++ 93 :: 58 :: port)) = (h, some port)
    simp [splitText, stripPrefix, splitOnce_append (show 93 ∉ h from he)]

/-! ### What the check takes -/

/-- What the check compares a host with. -/
def hostOk (hostPart host : Text) : Bool :=
  match stripPrefix [42, 46] hostPart with
  | some suffix =>
    match stripSuffix suffix host with
    | some head => head.getLast? = some 46 ∧ 1 < head.length
    | none => false
  | none => hostPart.map lower = host.map lower

theorem accepts_eq (key : String) (e host : Text) (port : Option ℕ) :
    accepts key e host port = (hostOk (splitText e).1 host &&
      ((splitText e).2.bind parsePort).all fun p => some p = port) := by
  have hlimit : (⟨[(key, .entries [e])]⟩ : Grants).limit key = some (.entries [e]) := by
    simp [Grants.limit]
  unfold accepts Grants.coversHost
  rw [hlimit]
  simp only [any_cons, any_nil, Bool.or_false]
  unfold hostCovered
  rw [splitHost_eq]
  rfl

/-- An entry of `*.` takes the hosts of one label or more before its suffix. -/
theorem hostOk_wildcard {suffix host : Text} :
    hostOk (42 :: 46 :: suffix) host = true ↔
      ∃ labels, labels ≠ [] ∧ host = labels ++ 46 :: suffix := by
  have hstrip : stripPrefix [42, 46] (42 :: 46 :: suffix) = some suffix := by simp [stripPrefix]
  have hcheck : hostOk (42 :: 46 :: suffix) host =
      match stripSuffix suffix host with
      | some head => decide (head.getLast? = some 46 ∧ 1 < head.length)
      | none => false := by
    unfold hostOk
    rw [hstrip]
  rw [hcheck]
  constructor
  · intro h
    unfold stripSuffix at h
    by_cases hsuffix : suffix <:+ host
    · obtain ⟨head, rfl⟩ := hsuffix
      rw [if_pos (suffix_append head suffix)] at h
      simp only [length_append, Nat.add_sub_cancel, take_left, Bool.decide_and, Bool.and_eq_true,
        decide_eq_true_eq] at h
      obtain ⟨hlast, hlen⟩ := h
      obtain ⟨labels, rfl⟩ := List.getLast?_eq_some_iff.mp hlast
      refine ⟨labels, ?_, by simp⟩
      rintro rfl
      simp at hlen
    · simp [if_neg hsuffix] at h
  · rintro ⟨labels, hlabels, rfl⟩
    have happ : labels ++ 46 :: suffix = (labels ++ [46]) ++ suffix := by simp
    have hpos : 0 < labels.length := length_pos_of_ne_nil hlabels
    rw [happ]
    unfold stripSuffix
    rw [if_pos (suffix_append _ suffix), length_append, Nat.add_sub_cancel, take_left]
    simp [hpos]

theorem hostOk_name {hostPart host : Text} (h : ∀ suffix, hostPart ≠ 42 :: 46 :: suffix) :
    hostOk hostPart host = true ↔ hostPart.map lower = host.map lower := by
  have hstrip : stripPrefix [42, 46] hostPart = none := by
    unfold stripPrefix
    rw [if_neg]
    rintro ⟨suffix, rfl⟩
    exact h suffix rfl
  unfold hostOk
  rw [hstrip, decide_eq_true_eq]

theorem hostOk_matches {hostPart host : Text} (h : hostOk hostPart host = true) :
    MatchesHost hostPart host := by
  by_cases hwild : ∃ suffix, hostPart = 42 :: 46 :: suffix
  · obtain ⟨suffix, rfl⟩ := hwild
    obtain ⟨labels, hlabels, rfl⟩ := hostOk_wildcard.mp h
    exact Or.inr ⟨labels, suffix, rfl, hlabels, rfl⟩
  · push Not at hwild
    exact Or.inl ((hostOk_name hwild).mp h).symm

theorem exists_hostOk (hostPart : Text) : ∃ host, hostOk hostPart host = true := by
  by_cases hwild : ∃ suffix, hostPart = 42 :: 46 :: suffix
  · obtain ⟨suffix, rfl⟩ := hwild
    exact ⟨[97] ++ 46 :: suffix, hostOk_wildcard.mpr ⟨[97], by simp, rfl⟩⟩
  · push Not at hwild
    exact ⟨hostPart, (hostOk_name hwild).mpr rfl⟩

/-- Without letters after `*.`, the case of neither side makes a difference. -/
theorem hostOk_congr {h h' host host' : Text}
    (hletters : ∀ suffix, h = 42 :: 46 :: suffix → ∀ b ∈ suffix, ¬IsLetter b)
    (hh : h'.map lower = h.map lower) (hhost : host'.map lower = host.map lower) :
    hostOk h' host' = hostOk h host := by
  rw [Bool.eq_iff_iff]
  by_cases hwild : ∃ suffix, h = 42 :: 46 :: suffix
  · obtain ⟨suffix, rfl⟩ := hwild
    have hsame : h' = 42 :: 46 :: suffix := by
      refine eq_of_map_lower_eq hh ?_
      intro b hb
      obtain rfl | rfl | hb : b = 42 ∨ b = 46 ∨ b ∈ suffix := by simpa using hb
      · decide
      · decide
      · exact hletters suffix rfl b hb
    -- a host is cut in the same place in either case
    have hcut : ∀ {s t : Text}, s.map lower = t.map lower →
        (∃ labels, labels ≠ [] ∧ s = labels ++ 46 :: suffix) →
        ∃ labels, labels ≠ [] ∧ t = labels ++ 46 :: suffix := by
      rintro s t hst ⟨labels, hlabels, rfl⟩
      rw [map_append] at hst
      obtain ⟨labels', rest, rfl, hl, hr⟩ := map_eq_append_iff.mp hst.symm
      refine ⟨labels', ?_, ?_⟩
      · rintro rfl
        exact hlabels (map_eq_nil_iff.mp (hl.symm.trans map_nil))
      · rw [eq_of_map_lower_eq hr]
        intro b hb
        obtain rfl | hb := mem_cons.mp hb
        · decide
        · exact hletters suffix rfl b hb
    rw [hsame, hostOk_wildcard, hostOk_wildcard]
    exact ⟨hcut hhost, hcut hhost.symm⟩
  · push Not at hwild
    have hwild' : ∀ suffix, h' ≠ 42 :: 46 :: suffix := by
      rintro suffix rfl
      have h42 : ¬IsLetter 42 := by decide
      have h46 : ¬IsLetter 46 := by decide
      cases h with
      | nil => simp at hh
      | cons b h =>
        cases h with
        | nil => simp at hh
        | cons c h =>
          simp only [map_cons, List.cons.injEq] at hh
          have hb : b = 42 := eq_of_lower_eq hh.1.symm h42
          have hc : c = 46 := eq_of_lower_eq hh.2.1.symm h46
          exact hwild h (by rw [hb, hc])
    rw [hostOk_name hwild, hostOk_name hwild', hh, hhost]

theorem not_isLetter_of_parsePort {text : Text} (h : parsePort text ≠ none) :
    ∀ b ∈ text, ¬IsLetter b := by
  intro b hb
  unfold parsePort at h
  simp only [ne_eq, ite_eq_right_iff, reduceCtorEq, imp_false, not_not] at h
  obtain ⟨-, hdigits, -⟩ := h
  have hcases : b = 43 ∨ 48 ≤ b ∧ b ≤ 57 := by
    by_cases hplus : text.head? = some 43
    · rw [if_pos hplus] at hdigits
      cases text with
      | nil => simp at hb
      | cons c text =>
        obtain rfl | hb := mem_cons.mp hb
        · exact Or.inl (by simpa using hplus)
        · exact Or.inr (hdigits b (by simpa using hb))
    · rw [if_neg hplus] at hdigits
      exact Or.inr (hdigits b hb)
  unfold IsLetter
  grind

end HdLang.Grant
