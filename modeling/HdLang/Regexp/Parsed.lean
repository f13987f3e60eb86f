import HdLang.Regexp.Syntax

/-!
# What the parser gives

Every pattern that parses gives a well-formed tree (`parse_wellFormed`): an alternation has branches, a
repetition's counts are in order, and the group of the whole match has no node.
-/

namespace HdLang.Regexp

/-! ### Well-formed trees -/

mutual

/-- A tree as the parser builds it. -/
def WellFormed : Node → Prop
  | .group body index => 1 ≤ index ∧ WellFormed body
  | .concat items => AllWellFormed items
  | .alternate branches => branches ≠ [] ∧ AllWellFormed branches
  | .repeat body min max _ => (∀ high, max = some high → min ≤ high) ∧ WellFormed body
  | .empty => True
  | .literal _ => True
  | .anyChar => True
  | .class _ _ => True
  | .begin => True
  | .end => True

/-- Trees as the parser builds them. -/
def AllWellFormed : List Node → Prop
  | [] => True
  | node :: nodes => WellFormed node ∧ AllWellFormed nodes

end

theorem AllWellFormed.snoc {nodes : List Node} {node : Node} (h : AllWellFormed nodes)
    (hnode : WellFormed node) : AllWellFormed (nodes ++ [node]) := by
  induction nodes with
  | nil => exact ⟨hnode, trivial⟩
  | cons first nodes ih => exact ⟨h.1, ih h.2⟩

theorem wellFormed_concatOf {items : List Node} (h : AllWellFormed items) :
    WellFormed (concatOf items) := by
  match items with
  | [] => trivial
  | [item] => exact h.1
  | item :: next :: items => exact h

theorem wellFormed_alternateOf {branches : List Node} (hne : branches ≠ [])
    (h : AllWellFormed branches) : WellFormed (alternateOf branches) := by
  match branches with
  | [] => exact absurd rfl hne
  | [branch] => exact h.1
  | branch :: next :: branches => exact ⟨hne, h⟩

/-! ### Results of parsers -/

/-- Every result of the parser from the names has the property, with the names then. -/
def Yields {α : Type} (p : Parse α) (names : List Text) (Q : α → List Text → Prop) : Prop :=
  ∀ a names', p names = .ok (a, names') → Q a names'

section Rules

variable {α β : Type} {names : List Text} {P : α → List Text → Prop} {Q : β → List Text → Prop}

theorem Yields.bind {p : Parse α} {f : α → Parse β} (hp : Yields p names P)
    (hf : ∀ a names', P a names' → Yields (f a) names' Q) : Yields (p >>= f) names Q := by
  intro b names'' h
  cases hrun : p names with
  | error e =>
    rw [show (p >>= f) names = (p names >>= fun r => f r.1 r.2) from rfl, hrun] at h
    exact nomatch h
  | ok r =>
    rw [show (p >>= f) names = (p names >>= fun r => f r.1 r.2) from rfl, hrun] at h
    exact hf r.1 r.2 (hp r.1 r.2 hrun) b names'' h

theorem Yields.pure {a : α} (h : P a names) : Yields (Pure.pure a) names P := by
  intro a' names' heq
  obtain ⟨rfl, rfl⟩ := Prod.mk.inj (Except.ok.inj heq)
  exact h

theorem Yields.throw (e : Trouble) : Yields (throw e : Parse α) names P := fun _ _ h => nomatch h

theorem Yields.lift {p : Except Trouble α} (h : ∀ a, p = .ok a → P a names) :
    Yields (liftM p : Parse α) names P := by
  intro a names' heq
  cases p with
  | error e => exact nomatch heq
  | ok a' =>
    obtain ⟨rfl, rfl⟩ := Prod.mk.inj (Except.ok.inj heq)
    exact h _ rfl

theorem fail_ne_ok (e : ℕ → RegexError) (source : Pattern) (index : ℕ) (a : α) :
    fail e source index ≠ .ok a := by
  unfold fail
  split <;> exact fun h => nomatch h

theorem Yields.fail (e : ℕ → RegexError) (source : Pattern) (index : ℕ) :
    Yields (liftM (Regexp.fail e source index : Except Trouble α) : Parse α) names P :=
  .lift fun a h => absurd h (fail_ne_ok e source index a)

end Rules

/-! ### The parsers -/

section Parsers

variable {source : Pattern} {names : List Text}

theorem wellFormed_repeated {atom : Step} (h : WellFormed atom.node) {min : ℕ} {max : Option ℕ}
    (hmax : ∀ high, max = some high → min ≤ high) (next : ℕ) :
    WellFormed (repeated source atom min max next).node := by
  unfold repeated
  split <;> exact ⟨hmax, h⟩

theorem wellFormed_parseRepeat {atom step : Step} (h : WellFormed atom.node)
    (hrun : parseRepeat source atom = .ok step) : WellFormed step.node := by
  unfold parseRepeat at hrun
  split at hrun
  · obtain rfl := Except.ok.inj hrun
    exact wellFormed_repeated h (fun high h => by simp at h) _
  · obtain rfl := Except.ok.inj hrun
    exact wellFormed_repeated h (fun high h => by simp at h) _
  · obtain rfl := Except.ok.inj hrun
    exact wellFormed_repeated h (fun high _ => Nat.zero_le high) _
  · split at hrun
    · obtain rfl := Except.ok.inj hrun
      exact h
    · next counts hcounts =>
      split at hrun
      · exact absurd hrun (fail_ne_ok _ _ _ _)
      · next hgood =>
        obtain rfl := Except.ok.inj hrun
        refine wellFormed_repeated h (fun high hhigh => ?_) _
        rw [hhigh, badCounts] at hgood
        by_contra hlt
        apply hgood
        simp [Nat.lt_of_not_le hlt]
  · obtain rfl := Except.ok.inj hrun
    exact h

theorem wellFormed_classFrom {opened : ℕ} {negated : Bool} {fuel : ℕ} {items : List ClassItem}
    {first : Bool} {index : ℕ} {step : Step}
    (hrun : classFrom source opened negated fuel items first index = .ok step) :
    WellFormed step.node := by
  induction fuel generalizing items first index with
  | zero => cases hrun
  | succ fuel ih =>
    rw [classFrom] at hrun
    split at hrun
    · exact absurd hrun (fail_ne_ok _ _ _ _)
    · split at hrun
      · obtain rfl := Except.ok.inj hrun
        trivial
      · cases hlow : classChar source index with
        | error e =>
          rw [hlow] at hrun
          cases hrun
        | ok low =>
          rw [hlow] at hrun
          dsimp only [bind, Except.bind] at hrun
          split at hrun
          · split at hrun
            · exact absurd hrun (fail_ne_ok _ _ _ _)
            · exact ih hrun
          · split at hrun
            · cases hhigh : classChar source (low.next + 1) with
              | error e =>
                rw [hhigh] at hrun
                cases hrun
              | ok high =>
                rw [hhigh] at hrun
                change (if high.item.isSome ∨ high.value < low.value then _ else _) = _ at hrun
                split at hrun
                · exact absurd hrun (fail_ne_ok _ _ _ _)
                · exact ih hrun
            · exact ih hrun

/-- What the parsers give: a well-formed tree, and no fewer names. -/
def Sound (names : List Text) (step : Step) (names' : List Text) : Prop :=
  WellFormed step.node ∧ names.length ≤ names'.length

theorem yields_parseName (opened nameAt : ℕ) :
    Yields (parseName source opened nameAt) names fun _ names' => names' = names := by
  unfold parseName
  dsimp only
  split
  · exact .fail _ _ _
  · refine .bind (P := fun _ names' => names' = names) ?_ fun seen names' hnames => ?_
    · intro seen names' h
      obtain ⟨-, rfl⟩ := Prod.mk.inj (Except.ok.inj h)
      rfl
    · subst hnames
      split
      · exact .fail _ _ _
      · exact .pure rfl

theorem yields_parseOpening (opened : ℕ) :
    Yields (parseOpening source opened) names fun _ names' => names' = names := by
  unfold parseOpening
  dsimp only
  split
  · split
    · exact .pure rfl
    · split
      · exact yields_parseName _ _
      · split
        · exact yields_parseName _ _
        · exact .fail _ _ _
  · exact .pure rfl

/-- **The parsers build well-formed trees**, by their fuel. -/
theorem sound_parsers (fuel : ℕ) :
    (∀ index branches names, 1 ≤ names.length → AllWellFormed branches →
      Yields (parseAlternation source fuel index branches) names (Sound names)) ∧
    (∀ index items names, 1 ≤ names.length → AllWellFormed items →
      Yields (parseConcat source fuel index items) names (Sound names)) ∧
    (∀ index names, 1 ≤ names.length →
      Yields (parseAtom source fuel index) names (Sound names)) ∧
    (∀ opened names, 1 ≤ names.length →
      Yields (parseGroup source fuel opened) names (Sound names)) := by
  induction fuel with
  | zero =>
    refine ⟨fun _ _ _ _ _ => ?_, fun _ _ _ _ _ => ?_, fun _ _ _ => ?_, fun _ _ _ => ?_⟩
    · rw [parseAlternation]
      exact .throw _
    · rw [parseConcat]
      exact .throw _
    · rw [parseAtom]
      exact .throw _
    · rw [parseGroup]
      exact .throw _
  | succ fuel ih =>
    obtain ⟨halternation, hconcat, hatom, hgroup⟩ := ih
    refine ⟨fun index branches names hnames hbranches => ?_, fun index items names hnames hitems => ?_,
      fun index names hnames => ?_, fun opened names hnames => ?_⟩
    · rw [parseAlternation]
      refine (hconcat index [] names hnames trivial).bind fun branch names' hbranch => ?_
      obtain ⟨hnode, hmore⟩ := hbranch
      dsimp only
      have hall := hbranches.snoc hnode
      split
      · intro step names'' h
        obtain ⟨hstep, hmore'⟩ := halternation _ _ _ (Nat.le_trans hnames hmore) hall step names'' h
        exact ⟨hstep, Nat.le_trans hmore hmore'⟩
      · refine .pure ⟨wellFormed_alternateOf ?_ hall, hmore⟩
        exact List.append_ne_nil_of_right_ne_nil _ (List.cons_ne_nil _ _)
    · rw [parseConcat]
      split
      · exact .pure ⟨wellFormed_concatOf hitems, Nat.le_refl _⟩
      · split
        · exact .pure ⟨wellFormed_concatOf hitems, Nat.le_refl _⟩
        · split
          · exact .fail _ _ _
          · refine (hatom index names hnames).bind fun atom names' hstep => ?_
            obtain ⟨hnode, hmore⟩ := hstep
            refine (Yields.lift (P := fun step names'' => WellFormed step.node ∧ names'' = names')
              fun step hrun => ⟨wellFormed_parseRepeat hnode hrun, rfl⟩).bind
                fun step names'' hstep => ?_
            obtain ⟨hnode', rfl⟩ := hstep
            intro last names''' h
            obtain ⟨hlast, hmore'⟩ := hconcat _ _ _ (Nat.le_trans hnames hmore) (hitems.snoc hnode') last
              names''' h
            exact ⟨hlast, Nat.le_trans hmore hmore'⟩
    · rw [parseAtom]
      refine (Yields.lift (P := fun _ names' => names' = names) fun _ _ => rfl).bind
        fun c names' hc => ?_
      subst hc
      split
      · exact hgroup index _ hnames
      · split
        · refine .lift fun step hrun => ⟨?_, Nat.le_refl _⟩
          unfold parseClass at hrun
          split at hrun <;> exact wellFormed_classFrom hrun
        · split
          · exact .pure ⟨trivial, Nat.le_refl _⟩
          · split
            · exact .pure ⟨trivial, Nat.le_refl _⟩
            · split
              · exact .pure ⟨trivial, Nat.le_refl _⟩
              · split
                · refine (Yields.lift (P := fun _ seen => seen = names') fun _ _ => rfl).bind
                    fun escaped names'' hescaped => ?_
                  subst hescaped
                  split
                  · exact .pure ⟨trivial, Nat.le_refl _⟩
                  · exact .pure ⟨trivial, Nat.le_refl _⟩
                · exact .pure ⟨trivial, Nat.le_refl _⟩
    · rw [parseGroup]
      refine (yields_parseOpening opened).bind fun opening names' hopening => ?_
      subst hopening
      refine Yields.bind (P := fun seen names'' => seen = names' ∧ names'' = names') ?_
        fun seen names'' hseen => ?_
      · intro seen names' h
        obtain ⟨rfl, rfl⟩ := Prod.mk.inj (Except.ok.inj h)
        exact ⟨rfl, rfl⟩
      · obtain ⟨rfl, rfl⟩ := hseen
        -- The names that the inner pattern is parsed with.
        have hinner : ∀ names, names''.length ≤ names.length →
            Yields (do
              let inner ← parseAlternation source fuel opening.start []
              if source.has inner.next ')' = false then liftM (@fail Step .missingParen source opened)
              else if opening.capturing then
                Pure.pure ⟨.group inner.node names''.length, inner.next + 1⟩
              else Pure.pure ⟨inner.node, inner.next + 1⟩ : Parse Step) names (Sound names'') := by
          intro names hmore
          refine (halternation _ [] names (Nat.le_trans hnames hmore) trivial).bind
            fun inner names' hinner => ?_
          obtain ⟨hnode, hmore'⟩ := hinner
          split
          · exact .fail _ _ _
          · split
            · exact .pure ⟨⟨hnames, hnode⟩, Nat.le_trans hmore hmore'⟩
            · exact .pure ⟨hnode, Nat.le_trans hmore hmore'⟩
        dsimp only
        by_cases hcapturing : opening.capturing = true
        · rw [if_pos hcapturing]
          refine Yields.bind (P := fun _ names => names = names'' ++ [opening.name]) ?_
            fun _ names hset => ?_
          · intro _ names h
            exact (Prod.mk.inj (Except.ok.inj h)).2.symm
          · subst hset
            exact hinner (names'' ++ [opening.name])
              (by rw [List.length_append]; exact Nat.le_add_right _ _)
        · rw [if_neg hcapturing]
          exact hinner names'' (Nat.le_refl _)

/-- **A pattern that parses** gives a well-formed tree. -/
theorem parse_wellFormed {fuel : ℕ} {pattern : Text} {node : Node} {names : List Text}
    (h : parse fuel pattern = .ok (node, names)) : WellFormed node := by
  unfold parse at h
  dsimp only at h
  cases hrun : (parseAlternation (Pattern.of pattern) fuel 0 []).run [[]] with
  | error e =>
    rw [hrun] at h
    exact nomatch h
  | ok r =>
    rw [hrun] at h
    obtain ⟨hnode, -⟩ := (sound_parsers fuel).1 0 [] [[]] (Nat.le_refl 1) trivial r.1 r.2 hrun
    change (if r.1.next < (Pattern.of pattern).chars.length then _ else _) = _ at h
    split at h
    · exact absurd h (fail_ne_ok _ _ _ _)
    · obtain ⟨rfl, -⟩ := Prod.mk.inj (Except.ok.inj h)
      exact hnode

end Parsers

end HdLang.Regexp
