import HdLang.Types.Variables

/-!
# The trail

What the trail remembers: `t'.Extends t` says that undoing what the trail has more in `t'` than in `t`
gives `t` again, with only fresh variables after those of `t`. Each write that pushes its undo entry
extends the table, extending is transitive, and a rollback undoes it.
-/

namespace HdLang.Types.InferTable

open List

variable {t t' t'' : InferTable}

/-- The columns have one entry for each variable. -/
structure Even (t : InferTable) : Prop where
  rank : t.rank.length = t.varCount
  binding : t.binding.length = t.varCount
  kind : t.kind.length = t.varCount

/-- The table with a fresh variable of each of these kinds. -/
def grown (t : InferTable) (ks : List VarKind) : InferTable where
  parent := t.parent ++ List.range' t.varCount ks.length
  rank := t.rank ++ List.replicate ks.length 0
  binding := t.binding ++ List.replicate ks.length none
  kind := t.kind ++ ks
  trail := t.trail

@[simp] theorem grown_nil : t.grown [] = t := by simp [grown]

@[simp] theorem grown_trail (ks : List VarKind) : (t.grown ks).trail = t.trail := rfl

@[simp] theorem grown_varCount (ks : List VarKind) :
    (t.grown ks).varCount = t.varCount + ks.length := by
  simp [grown, varCount]

theorem grown_grown (ks ks' : List VarKind) : (t.grown ks).grown ks' = t.grown (ks ++ ks') := by
  simp only [grown, varCount, length_append, length_range', append_assoc, mk.injEq,
    append_cancel_left_eq, replicate_add, and_true]
  exact List.range'_append_1

theorem Even.grown (h : t.Even) (ks : List VarKind) : (t.grown ks).Even := by
  constructor <;> simp [InferTable.grown, varCount, h.rank, h.binding, h.kind]

/-! ### Undoing -/

variable {α : Type} {l l' : List α} {v : ℕ} {x : α}

theorem store_append {ext : List α} (h : store l v x = .ok l') :
    store (l ++ ext) v x = .ok (l' ++ ext) := by
  obtain ⟨hv, rfl⟩ := store_eq_ok.mp h
  refine store_eq_ok.mpr ⟨?_, set_append_left _ _ hv⟩
  rw [length_append]
  omega

theorem length_store (h : store l v x = .ok l') :
    l'.length = l.length := by
  obtain ⟨-, rfl⟩ := store_eq_ok.mp h
  exact length_set

variable {u : Undo}

/-- What undoing an entry leaves alone: the number of variables, the trail, and fresh variables after
those of the table. -/
theorem undo_spec (h : t.undo u = .ok t') :
    t'.varCount = t.varCount ∧ t'.trail = t.trail ∧
      ∀ ks, (t.grown ks).undo u = .ok (t'.grown ks) := by
  cases u with
  | parent v old =>
    obtain ⟨parent, hs, h⟩ := bind_eq_ok.mp h
    obtain rfl := Except.ok.inj h
    refine ⟨length_store hs, rfl, fun ks => bind_eq_ok.mpr ⟨_, store_append hs, ?_⟩⟩
    simp only [grown, varCount, length_store hs]
    rfl
  | bind v =>
    obtain ⟨_, hs, h⟩ := bind_eq_ok.mp h
    obtain rfl := Except.ok.inj h
    exact ⟨rfl, rfl, fun ks => bind_eq_ok.mpr ⟨_, store_append hs, rfl⟩⟩
  | rank v old =>
    obtain ⟨_, hs, h⟩ := bind_eq_ok.mp h
    obtain rfl := Except.ok.inj h
    exact ⟨rfl, rfl, fun ks => bind_eq_ok.mpr ⟨_, store_append hs, rfl⟩⟩
  | kind v old =>
    obtain ⟨_, hs, h⟩ := bind_eq_ok.mp h
    obtain rfl := Except.ok.inj h
    exact ⟨rfl, rfl, fun ks => bind_eq_ok.mpr ⟨_, store_append hs, rfl⟩⟩
  | rebind v old =>
    obtain ⟨_, hs, h⟩ := bind_eq_ok.mp h
    obtain rfl := Except.ok.inj h
    exact ⟨rfl, rfl, fun ks => bind_eq_ok.mpr ⟨_, store_append hs, rfl⟩⟩

/-- A rollback to where the trail is already undoes nothing. -/
theorem rollback_of_le {s : ℕ} (h : t.trail.length ≤ s) : t.rollback s = .ok t := by
  unfold rollback
  cases hl : t.trail with
  | nil => rfl
  | cons u older =>
    rw [hl, length_cons] at h
    rw [unwind, if_neg (by omega)]
    rfl

@[simp] theorem rollback_snapshot : t.rollback t.snapshot = .ok t := rollback_of_le (Nat.le_refl _)

variable {s : ℕ}

theorem rollback_grown (ks : List VarKind) (h : t.rollback s = .ok t') :
    (t.grown ks).rollback s = .ok (t'.grown ks) := by
  unfold rollback at h ⊢
  rw [grown_trail]
  generalize t.trail = l at h
  induction l generalizing t with
  | nil =>
    obtain rfl := Except.ok.inj h
    rfl
  | cons u older ih =>
    rw [unwind] at h ⊢
    split at h
    · next hlong =>
      rw [if_pos hlong]
      obtain ⟨t₁, hu, h⟩ := bind_eq_ok.mp h
      exact bind_eq_ok.mpr ⟨_, (undo_spec hu).2.2 ks, ih h⟩
    · next hlong =>
      rw [if_neg hlong]
      obtain rfl := Except.ok.inj h
      rfl

/-- A rollback leaves no more of the trail than asked for, and every variable. -/
theorem rollback_spec (h : t.rollback s = .ok t') :
    t'.trail.length = min s t.trail.length ∧ t'.varCount = t.varCount := by
  unfold rollback at h
  generalize hl : t.trail = l at h
  induction l generalizing t with
  | nil =>
    obtain rfl := Except.ok.inj h
    exact ⟨by rw [hl]; simp, rfl⟩
  | cons u older ih =>
    rw [unwind] at h
    split at h
    · obtain ⟨t₁, hu, h⟩ := bind_eq_ok.mp h
      obtain ⟨hlength, hcount⟩ := ih (undo_spec hu).2.1 h
      refine ⟨?_, hcount.trans (undo_spec hu).1⟩
      rw [hlength, length_cons]
      omega
    · obtain rfl := Except.ok.inj h
      refine ⟨?_, rfl⟩
      rw [hl, length_cons]
      omega

/-- **Rolling back in two stretches** is rolling back. -/
theorem rollback_rollback {s' : ℕ} (hs : s ≤ s') (h : t.rollback s' = .ok t') :
    t.rollback s = t'.rollback s := by
  unfold rollback at h ⊢
  generalize hl : t.trail = l at h
  induction l generalizing t with
  | nil =>
    obtain rfl := Except.ok.inj h
    rw [hl]
  | cons u older ih =>
    rw [unwind] at h
    split at h
    · next hlong =>
      obtain ⟨t₁, hu, h⟩ := bind_eq_ok.mp h
      have htrail : t₁.trail = older := (undo_spec hu).2.1
      rw [unwind, if_pos (by omega), hu]
      exact ih htrail h
    · obtain rfl := Except.ok.inj h
      rw [hl]

/-! ### Extending -/

/-- Undoing what the trail has more in `t'` than in `t` gives `t`, and fresh variables after it. -/
def Extends (t' t : InferTable) : Prop := ∃ ks, t'.rollback t.snapshot = .ok (t.grown ks)

theorem Extends.refl : t.Extends t := ⟨[], by simp⟩

theorem Extends.trans (h : t'.Extends t) (h' : t''.Extends t') : t''.Extends t := by
  obtain ⟨ks, hks⟩ := h
  obtain ⟨ks', hks'⟩ := h'
  have hle : t.snapshot ≤ t'.snapshot := by
    have := (rollback_spec hks).1
    rw [grown_trail] at this
    unfold snapshot at this ⊢
    omega
  refine ⟨ks ++ ks', ?_⟩
  calc t''.rollback t.snapshot = (t'.grown ks').rollback t.snapshot := rollback_rollback hle hks'
    _ = .ok ((t.grown ks).grown ks') := rollback_grown ks' hks
    _ = .ok (t.grown (ks ++ ks')) := by rw [grown_grown]

theorem Extends.grown (ks : List VarKind) : (t.grown ks).Extends t := by
  refine ⟨ks, rollback_of_le ?_⟩
  rw [grown_trail]
  exact Nat.le_refl _

theorem Extends.push (htrail : t'.trail = u :: t.trail)
    (hundo : { t' with trail := t.trail }.undo u = .ok t) : t'.Extends t := by
  refine ⟨[], ?_⟩
  rw [grown_nil, rollback, htrail, unwind,
    if_pos (show t.trail.length + 1 > t.snapshot from Nat.lt_succ_self _)]
  refine bind_eq_ok.mpr ⟨t, hundo, ?_⟩
  exact rollback_snapshot

/-- Writing back what an entry was before a write. -/
theorem store_set {y : α} (h : l[v]? = some x) :
    store (l.set v y) v x = .ok l := by
  obtain ⟨hv, hx⟩ := List.getElem?_eq_some_iff.mp h
  refine store_eq_ok.mpr ⟨by rwa [length_set], ?_⟩
  rw [set_set, ← hx, set_getElem_self]

theorem Extends.bind {v : ℕ} {ty : Ty} (h : t.binding[v]? = some none) :
    { t with binding := t.binding.set v (some ty), trail := .bind v :: t.trail }.Extends t :=
  Extends.push rfl (bind_eq_ok.mpr ⟨_, store_set h, rfl⟩)

theorem Extends.rebind {v : ℕ} {old : Option Ty} {ty : Ty} (h : t.binding[v]? = some old) :
    { t with binding := t.binding.set v (some ty), trail := .rebind v old :: t.trail }.Extends t :=
  Extends.push rfl (bind_eq_ok.mpr ⟨_, store_set h, rfl⟩)

theorem Extends.parent {v old new : ℕ} (h : t.parent[v]? = some old) :
    { t with parent := t.parent.set v new, trail := .parent v old :: t.trail }.Extends t :=
  Extends.push rfl (bind_eq_ok.mpr ⟨_, store_set h, rfl⟩)

theorem Extends.rank {v old new : ℕ} (h : t.rank[v]? = some old) :
    { t with rank := t.rank.set v new, trail := .rank v old :: t.trail }.Extends t :=
  Extends.push rfl (bind_eq_ok.mpr ⟨_, store_set h, rfl⟩)

theorem Extends.kind {v : ℕ} {old new : VarKind} (h : t.kind[v]? = some old) :
    { t with kind := t.kind.set v new, trail := .kind v old :: t.trail }.Extends t :=
  Extends.push rfl (bind_eq_ok.mpr ⟨_, store_set h, rfl⟩)

/-- **A trial's rollback** gives the table that the trial began with. -/
theorem Extends.rollbackTrial (heven : t.Even) (h : t'.Extends t) :
    t'.rollbackTrial t.trialMark = .ok t := by
  obtain ⟨ks, hks⟩ := h
  refine bind_eq_ok.mpr ⟨_, hks, ?_⟩
  have hparent : (t.grown ks).parent.take t.varCount = t.parent := take_left' rfl
  have hrank : (t.grown ks).rank.take t.varCount = t.rank := take_left' heven.rank
  have hbinding : (t.grown ks).binding.take t.varCount = t.binding := take_left' heven.binding
  have hkind : (t.grown ks).kind.take t.varCount = t.kind := take_left' heven.kind
  simp only [trialMark, hparent, hrank, hbinding, hkind, grown_trail]
  rfl

end HdLang.Types.InferTable
