import HdLang.Lib.Forest
import HdLang.Types.Trail
import HdLang.Types.Writes

/-!
# Runs of the inference table

`Run` is any sequence of operations on a table, with rollbacks to points on the way. Every operation
extends the table, so a rollback finds what it is to restore, and no run ends elsewhere than at a table
that extends the one it began with (`Run.extends`). The ranks of the union-find stay those of a union
by rank (`Sound`): operations keep them, and what a rollback gives was reached before.
-/

namespace HdLang.Types

open Function List Option

/-- One operation of the checker on its table, of which `made` says which types it may hand over. A
unification may end either way. -/
inductive Op (pool : Pool) (made : InferTable → Ty → Prop) : InferTable → InferTable → Prop
  | fresh {t t' kind v} (h : t.fresh kind = .ok (v, t')) : Op pool made t t'
  | unify {t t' fuel a b r} (ha : made t a) (hb : made t b)
      (h : (Types.unify pool fuel a b).run.run t = .ok (r, t')) : Op pool made t t'
  | alias_ {t t' fuel var ty} (hvar : made t var) (hty : made t ty)
      (h : t.alias_ fuel var ty = .ok t') : Op pool made t t'
  | rebind {t t' fuel var ty} (hvar : made t var) (hty : made t ty)
      (h : t.rebind fuel var ty = .ok t') : Op pool made t t'
  | markSigned {t t' fuel ty} (hty : made t ty) (h : t.markSigned fuel ty = .ok t') :
      Op pool made t t'

/-- A sequence of operations, and of rollbacks of stretches of it: `mid` is where the snapshot or the
trial mark was taken. -/
inductive Run (pool : Pool) (made : InferTable → Ty → Prop) : InferTable → InferTable → Prop
  | refl {t} : Run pool made t t
  | op {t mid t'} (hrun : Run pool made t mid) (h : Op pool made mid t') : Run pool made t t'
  | rollback {t mid last t'} (hrun : Run pool made t mid) (hnested : Run pool made mid last)
      (h : last.rollback mid.snapshot = .ok t') : Run pool made t t'
  | rollbackTrial {t mid last t'} (hrun : Run pool made t mid) (hnested : Run pool made mid last)
      (h : last.rollbackTrial mid.trialMark = .ok t') : Run pool made t t'

/-- Any type. -/
def anyType : InferTable → Ty → Prop := fun _ _ => True

/-- A type made of the variables that the table has. -/
def ownType (t : InferTable) (ty : Ty) : Prop := ty.VarsIn (· < t.varCount)

variable {fuel : ℕ}

namespace InferTable

variable {t t' : InferTable}

/-- No variable links to or is bound to a type with a variable that the table does not have. -/
structure Closed (t : InferTable) : Prop where
  linked : ∀ v ∈ t.parent, v < t.varCount
  bound : ∀ ty, some ty ∈ t.binding → ty.VarsIn (· < t.varCount)

/-- The parent of a variable. -/
def up (t : InferTable) (v : ℕ) : ℕ := t.parent.getD v v

/-- The rank of a variable. -/
def rankOf (t : InferTable) (v : ℕ) : ℕ := t.rank.getD v 0

/-- The columns of a union by rank. -/
structure Sound (t : InferTable) : Prop where
  even : t.Even
  room : t.varCount ≤ 2 ^ 32
  ranked : Forest.Ranked t.varCount t.up t.rankOf

theorem sound_empty : empty.Sound := ⟨⟨rfl, rfl, rfl⟩, by simp [empty, varCount], .of_empty⟩

theorem closed_empty : empty.Closed :=
  ⟨fun _ h => absurd h not_mem_nil, fun _ h => absurd h not_mem_nil⟩

theorem up_eq {v w : ℕ} (h : t.parent[v]? = some w) : t.up v = w := by
  rw [up, getD_eq_getElem?_getD, h, getD_some]

theorem rankOf_eq {v r : ℕ} (h : t.rank[v]? = some r) : t.rankOf v = r := by
  rw [rankOf, getD_eq_getElem?_getD, h, getD_some]

theorem getD_set {l : List ℕ} {v w : ℕ} (hv : v < l.length) (default : ℕ → ℕ) :
    (fun u => (l.set v w).getD u (default u)) =
      Function.update (fun u => l.getD u (default u)) v w := by
  ext u
  rw [getD_eq_getElem?_getD, List.getElem?_set]
  by_cases hu : u = v
  · subst hu
    rw [if_pos rfl, if_pos hv, update_self, getD_some]
  · rw [if_neg (Ne.symm hu), update_of_ne hu, getD_eq_getElem?_getD]

/-! ### One operation -/

theorem fresh_eq_ok {kind : VarKind} {v : Ty} (h : t.fresh kind = .ok (v, t')) :
    t.varCount < 2 ^ 32 ∧ v = .infer t.varCount ∧ t' = t.grown [kind] := by
  unfold fresh at h
  split at h
  · next hroom =>
    obtain ⟨rfl, rfl⟩ := Prod.mk.inj (Except.ok.inj h)
    exact ⟨hroom, rfl, rfl⟩
  · cases h

variable {ty : Ty}

theorem rebind_cases {var : Ty} (h : t.rebind fuel var ty = .ok t') :
    t' = t ∨ ∃ r old, t.binding[r]? = some old ∧
      t' = { t with binding := t.binding.set r (some ty), trail := .rebind r old :: t.trail } := by
  unfold rebind at h
  split at h
  · obtain ⟨r, -, h⟩ := bind_eq_ok.mp h
    obtain ⟨old, hold, h⟩ := bind_eq_ok.mp h
    obtain ⟨binding, hb, h⟩ := bind_eq_ok.mp h
    obtain ⟨-, rfl⟩ := store_eq_ok.mp hb
    exact .inr ⟨r, old, column_eq_ok.mp hold, (Except.ok.inj h).symm⟩
  · exact .inl (Except.ok.inj h).symm

theorem alias_cases {var : Ty} (h : t.alias_ fuel var ty = .ok t') :
    t' = t ∨ ∃ r, t.binding[r]? = some none ∧
      t' = { t with binding := t.binding.set r (some ty), trail := .rebind r none :: t.trail } := by
  unfold alias_ at h
  split at h
  · obtain ⟨r, -, h⟩ := bind_eq_ok.mp h
    obtain ⟨old, hold, h⟩ := bind_eq_ok.mp h
    split at h
    · exact .inl (Except.ok.inj h).symm
    · next hnone =>
      obtain ⟨s, -, h⟩ := bind_eq_ok.mp h
      obtain ⟨s', -, h⟩ := bind_eq_ok.mp h
      split at h
      · exact .inl (Except.ok.inj h).symm
      · obtain ⟨binding, hb, h⟩ := bind_eq_ok.mp h
        obtain ⟨-, rfl⟩ := store_eq_ok.mp hb
        rw [not_isSome_iff_eq_none] at hnone
        subst hnone
        exact .inr ⟨r, column_eq_ok.mp hold, (Except.ok.inj h).symm⟩
  · exact .inl (Except.ok.inj h).symm

theorem markSigned_cases (h : t.markSigned fuel ty = .ok t') :
    t' = t ∨ ∃ r, t.kind[r]? = some .intLit ∧
      t' = { t with kind := t.kind.set r .signedIntLit, trail := .kind r .intLit :: t.trail } := by
  obtain ⟨s, -, h⟩ := bind_eq_ok.mp h
  split at h
  · obtain ⟨r, -, h⟩ := bind_eq_ok.mp h
    obtain ⟨k, hk, h⟩ := bind_eq_ok.mp h
    split at h
    · next hint =>
      subst hint
      obtain ⟨kind, hkind, h⟩ := bind_eq_ok.mp h
      obtain ⟨-, rfl⟩ := store_eq_ok.mp hkind
      exact .inr ⟨r, column_eq_ok.mp hk, (Except.ok.inj h).symm⟩
    · exact .inl (Except.ok.inj h).symm
  · exact .inl (Except.ok.inj h).symm

theorem Extends.link {x y : ℕ} {k : VarKind} (h : t.link x y k = .ok t') : t'.Extends t := by
  obtain ⟨child, root, rc, rr, t₁, t₂, -, -, hrr, -, h₁, h₂, h₃⟩ := link_cases h
  obtain ⟨old, hold, rfl⟩ := setParent_eq_ok h₁
  have htwo : t₂.Extends t := by
    obtain ⟨-, rfl⟩ | ⟨-, rfl⟩ := raise_cases h₂
    · exact (Extends.parent hold).trans (Extends.rank hrr)
    · exact Extends.parent hold
  obtain rfl | ⟨kr, hkr, rfl⟩ := setKind_eq_ok h₃
  · exact htwo
  · exact htwo.trans (Extends.kind hkr)

variable {p : ℕ → Prop}

theorem kept_extends : Kept p fun t t' => t'.Extends t where
  refl _ := Extends.refl
  trans h h' := h.trans h'
  bind hv _ := Extends.bind hv.2
  link _ _ _ h := Extends.link h

/-- The union-find of columns of the same lengths. -/
theorem Sound.next (h : t.Sound) (hparent : t'.parent.length = t.parent.length)
    (hrank : t'.rank.length = t.rank.length) (hbinding : t'.binding.length = t.binding.length)
    (hkind : t'.kind.length = t.kind.length) (hranked : Forest.Ranked t.varCount t'.up t'.rankOf)
    : t'.Sound := by
  have hcount : t'.varCount = t.varCount := hparent
  refine ⟨⟨?_, ?_, ?_⟩, ?_, ?_⟩
  · rw [hrank, hcount, h.even.rank]
  · rw [hbinding, hcount, h.even.binding]
  · rw [hkind, hcount, h.even.kind]
  · rw [hcount]
    exact h.room
  · rw [hcount]
    exact hranked

theorem Sound.link {x y : ℕ} {k : VarKind} (hx : t.Open x) (hy : t.Open y) (hne : x ≠ y)
    (h : t.link x y k = .ok t') (ht : t.Sound) : t'.Sound := by
  obtain ⟨child, root, rc, rr, t₁, t₂, hpair, hrc, hrr, hle, h₁, h₂, h₃⟩ := link_cases h
  have hchild : t.Open child ∧ t.Open root ∧ child ≠ root := by
    obtain ⟨rfl, rfl⟩ | ⟨rfl, rfl⟩ := hpair
    · exact ⟨hx, hy, hne⟩
    · exact ⟨hy, hx, hne.symm⟩
  obtain ⟨hopen, hopen', hne⟩ := hchild
  have hrank := rankOf_eq hrc
  have hrank' := rankOf_eq hrr
  -- the rank of a root is at most 32, so the column's `u8` does not wrap
  have hsmall : rr < 255 := by
    have hlog := ht.ranked.rank_le hopen'.lt (up_eq hopen'.1)
    have hmono : Nat.log 2 t.varCount ≤ Nat.log 2 (2 ^ 32) := Nat.log_mono_right ht.room
    rw [Nat.log_pow Nat.one_lt_two] at hmono
    omega
  have hlink := ht.ranked.link hopen.lt hopen'.lt hne (up_eq hopen.1) (up_eq hopen'.1)
    (by rw [hrank, hrank']; exact hle)
    (show (if rc = rr then rr + 1 else rr) = _ by rw [hrank, hrank'])
  obtain ⟨old, hold, rfl⟩ := setParent_eq_ok h₁
  have htwo : t₂.Sound := by
    have hup : (fun v => (t.parent.set child root).getD v v) = Function.update t.up child root :=
      getD_set hopen.lt id
    obtain ⟨htie, rfl⟩ | ⟨htie, rfl⟩ := raise_cases h₂
    · rw [if_pos htie] at hlink
      have hranks : (fun v => (t.rank.set root ((rr + 1) % 256)).getD v 0) =
          Function.update t.rankOf root (rr + 1) := by
        rw [Nat.mod_eq_of_lt (by omega)]
        exact getD_set (by rw [ht.even.rank]; exact hopen'.lt) fun _ => 0
      rw [← hup, ← hranks] at hlink
      exact ht.next length_set length_set rfl rfl hlink
    · rw [if_neg htie] at hlink
      have hsame : Function.update t.rankOf root rr = t.rankOf := by
        rw [← hrank', update_eq_self]
      rw [← hup, hsame] at hlink
      exact ht.next length_set rfl rfl rfl hlink
  obtain rfl | ⟨kr, hkr, rfl⟩ := setKind_eq_ok h₃
  · exact htwo
  · exact htwo.next rfl rfl rfl length_set htwo.ranked

theorem Sound.grown {ks : List VarKind} (h : t.Sound) (hroom : t.varCount + ks.length ≤ 2 ^ 32) :
    (t.grown ks).Sound := by
  induction ks generalizing t with
  | nil => rwa [grown_nil]
  | cons k ks ih =>
    have hone : (t.grown [k]).Sound := by
      have hold : ∀ {l : List ℕ} {x v d : ℕ}, v < l.length → (l ++ [x]).getD v d = l.getD v d :=
        fun hv => by
          rw [getD_eq_getElem?_getD, List.getElem?_append_left hv, getD_eq_getElem?_getD]
      have hnew : ∀ {l : List ℕ} {x d : ℕ}, (l ++ [x]).getD l.length d = x := by simp
      rw [length_cons] at hroom
      refine ⟨h.even.grown _, ?_, ?_⟩
      · rw [grown_varCount, length_singleton]
        omega
      · rw [grown_varCount]
        refine h.ranked.grow (fun v hv => hold hv) (fun v hv => hold ?_) hnew ?_
        · rw [h.even.rank]
          exact hv
        · rw [rankOf, ← h.even.rank]
          exact hnew
    rw [show k :: ks = [k] ++ ks from rfl, ← grown_grown]
    refine ih hone ?_
    rw [grown_varCount, length_singleton]
    rw [length_cons] at hroom
    omega

theorem kept_sound : Kept p fun t t' => t.Sound → t'.Sound where
  refl _ := id
  trans h h' ht := h' (h ht)
  bind _ _ ht := ht.next rfl rfl length_set rfl ht.ranked
  link hx hy hne h := Sound.link hx hy hne h

theorem kept_varCount : Kept p fun t t' => t'.varCount = t.varCount where
  refl _ := rfl
  trans h h' := h'.trans h
  bind _ _ := rfl
  link _ _ _ h := (link_frame h).1

/-- Every binding mentions variables of the table only. -/
def Bound (t : InferTable) : Prop := ∀ ty, some ty ∈ t.binding → ty.VarsIn (· < t.varCount)

theorem Bound.set {r : ℕ} {ty : Ty} {u : Undo} (h : t.Bound) (hty : ownType t ty) :
    { t with binding := t.binding.set r (some ty), trail := u :: t.trail }.Bound := fun ty' h' => by
  obtain h' | h' := mem_or_eq_of_mem_set h'
  · exact h ty' h'
  · obtain rfl := some.inj h'
    exact hty

theorem Bound.grown {ks : List VarKind} (h : t.Bound) : (t.grown ks).Bound := fun ty hty => by
  obtain hty | hty := mem_append.mp hty
  · refine (h ty hty).mono fun v hv => ?_
    rw [grown_varCount]
    omega
  · cases (mem_replicate.mp hty).2

theorem Sound.closed (h : t.Sound) (hbound : t.Bound) : t.Closed where
  linked v hv := by
    obtain ⟨w, hw⟩ := List.getElem?_of_mem hv
    have hlt : w < t.varCount := (List.getElem?_eq_some_iff.mp hw).1
    rw [← up_eq hw]
    exact h.ranked.inside w hlt
  bound := hbound

end InferTable

/-! ### Runs -/

section

open InferTable

variable {pool : Pool} {made : InferTable → Ty → Prop} {t t' : InferTable}

theorem varsIn_true (ty : Ty) : ty.VarsIn fun _ => True := fun _ _ => trivial

/-- What both writes of a unification keep, a unification keeps. -/
theorem unify_kept {R : InferTable → InferTable → Prop} {a b : Ty} {r : Except UnifyError Unit}
    (hR : ∀ p, Kept p R) (h : (unify pool fuel a b).run.run t = .ok (r, t')) : R t t' :=
  (Attempts.of_run (unify_leads (hR fun _ => True) (varsIn_true a) (varsIn_true b)
    ⟨fun _ _ => trivial, fun ty _ => varsIn_true ty⟩) h).1

theorem Op.extends (h : Op pool made t t') : t'.Extends t := by
  cases h with
  | fresh h =>
    obtain ⟨-, -, rfl⟩ := fresh_eq_ok h
    exact Extends.grown _
  | unify _ _ h => exact unify_kept (R := fun t t' => t'.Extends t) (fun _ => kept_extends) h
  | alias_ _ _ h =>
    obtain rfl | ⟨r, hr, rfl⟩ := alias_cases h
    · exact Extends.refl
    · exact Extends.rebind hr
  | rebind _ _ h =>
    obtain rfl | ⟨r, old, hr, rfl⟩ := rebind_cases h
    · exact Extends.refl
    · exact Extends.rebind hr
  | markSigned _ h =>
    obtain rfl | ⟨r, hr, rfl⟩ := markSigned_cases h
    · exact Extends.refl
    · exact Extends.kind hr

theorem Op.sound (h : Op pool made t t') (ht : t.Sound) : t'.Sound := by
  cases h with
  | fresh h =>
    obtain ⟨hroom, -, rfl⟩ := fresh_eq_ok h
    exact ht.grown hroom
  | unify _ _ h => exact unify_kept (R := fun t t' => t.Sound → t'.Sound) (fun _ => kept_sound) h ht
  | alias_ _ _ h =>
    obtain rfl | ⟨r, -, rfl⟩ := alias_cases h
    · exact ht
    · exact ht.next rfl rfl length_set rfl ht.ranked
  | rebind _ _ h =>
    obtain rfl | ⟨r, old, -, rfl⟩ := rebind_cases h
    · exact ht
    · exact ht.next rfl rfl length_set rfl ht.ranked
  | markSigned _ h =>
    obtain rfl | ⟨r, -, rfl⟩ := markSigned_cases h
    · exact ht
    · exact ht.next rfl rfl rfl length_set ht.ranked

theorem Op.bound (h : Op pool ownType t t') (ht : t.Bound) : t'.Bound := by
  cases h with
  | fresh h =>
    obtain ⟨-, -, rfl⟩ := fresh_eq_ok h
    exact ht.grown
  | unify ha hb h =>
    have hkept := Attempts.of_run
      (unify_leads (kept_varCount (p := (· < t.varCount))) ha hb ⟨fun _ hv => hv, ht⟩) h
    intro ty hty
    rw [hkept.1]
    exact hkept.2.bound ty hty
  | alias_ _ hty h =>
    obtain rfl | ⟨r, -, rfl⟩ := alias_cases h
    · exact ht
    · exact ht.set hty
  | rebind _ hty h =>
    obtain rfl | ⟨r, old, -, rfl⟩ := rebind_cases h
    · exact ht
    · exact ht.set hty
  | markSigned _ h =>
    obtain rfl | ⟨r, -, rfl⟩ := markSigned_cases h
    · exact ht
    · exact ht

/-- **Runs** extend the table that they began with, and keep its union-find. -/
theorem Run.extends (h : Run pool made t t') (ht : t.Sound) : t'.Extends t ∧ t'.Sound := by
  induction h with
  | refl => exact ⟨Extends.refl, ht⟩
  | op _ h ih =>
    obtain ⟨hext, hsound⟩ := ih ht
    exact ⟨hext.trans h.extends, h.sound hsound⟩
  | rollback _ _ h ih ih' =>
    obtain ⟨hext, hsound⟩ := ih ht
    obtain ⟨⟨ks, hks⟩, hlast⟩ := ih' hsound
    obtain rfl := Except.ok.inj (hks.symm.trans h)
    refine ⟨hext.trans (Extends.grown ks), hsound.grown ?_⟩
    rw [← grown_varCount, (rollback_spec hks).2]
    exact hlast.room
  | rollbackTrial _ _ h ih ih' =>
    obtain ⟨hext, hsound⟩ := ih ht
    obtain rfl := Except.ok.inj (((ih' hsound).1.rollbackTrial hsound.even).symm.trans h)
    exact ⟨hext, hsound⟩

theorem Run.mono {made' : InferTable → Ty → Prop} (h : Run pool made t t')
    (hmade : ∀ t ty, made t ty → made' t ty) : Run pool made' t t' := by
  induction h with
  | refl => exact .refl
  | op _ h ih =>
    refine .op ih ?_
    cases h with
    | fresh h => exact .fresh h
    | unify ha hb h => exact .unify (hmade _ _ ha) (hmade _ _ hb) h
    | alias_ hvar hty h => exact .alias_ (hmade _ _ hvar) (hmade _ _ hty) h
    | rebind hvar hty h => exact .rebind (hmade _ _ hvar) (hmade _ _ hty) h
    | markSigned hty h => exact .markSigned (hmade _ _ hty) h
  | rollback _ _ h ih ih' => exact .rollback ih ih' h
  | rollbackTrial _ _ h ih ih' => exact .rollbackTrial ih ih' h

theorem Run.bound (h : Run pool ownType t t') (ht : t.Sound) (hb : t.Bound) : t'.Bound := by
  induction h with
  | refl => exact hb
  | op _ h ih => exact h.bound (ih ht hb)
  | rollback hrun hnested h ih _ =>
    obtain ⟨-, hsound⟩ := hrun.extends ht
    obtain ⟨⟨ks, hks⟩, -⟩ := hnested.extends hsound
    obtain rfl := Except.ok.inj (hks.symm.trans h)
    exact (ih ht hb).grown
  | rollbackTrial hrun hnested h ih _ =>
    obtain ⟨-, hsound⟩ := hrun.extends ht
    obtain rfl := Except.ok.inj (((hnested.extends hsound).1.rollbackTrial hsound.even).symm.trans h)
    exact ih ht hb

/-- **A trial's rollback is exact**: whatever is done to the table between a trial mark and the
rollback to it, the table is then what it was at the mark. When the checker hands over types of the
table's variables only, no variable left links to or is bound to a type with one that is gone. -/
theorem rollbackTrial_exact (hreach : Run pool anyType .empty t) (hlater : Run pool anyType t t') :
    t'.rollbackTrial t.trialMark = .ok t ∧ (Run pool ownType .empty t → t.Closed) := by
  obtain ⟨-, hsound⟩ := hreach.extends sound_empty
  obtain ⟨hext, -⟩ := hlater.extends hsound
  refine ⟨hext.rollbackTrial hsound.even, fun hown => hsound.closed ?_⟩
  exact hown.bound sound_empty closed_empty.bound

/-- A table with two variables, one linked to the other. -/
theorem run_linked : Run Pool.numbered ownType .empty ⟨[1, 1], [0, 1], [none, none],
    [.general, .general], [.rank 1 0, .parent 0 0]⟩ := by
  have htwo : Run Pool.numbered ownType .empty ⟨[0, 1], [0, 0], [none, none], [.general, .general], []⟩ :=
    .op (.op .refl (.fresh (show InferTable.fresh _ .general = _ from rfl)))
      (.fresh (show InferTable.fresh _ .general = _ from rfl))
  refine .op htwo (.unify (a := .infer 0) (b := .infer 1) (r := .ok ()) ?_ ?_
    (show (Types.unify _ 3 _ _).run.run _ = _ from rfl))
  · exact Ty.varsIn_infer.mpr (by decide)
  · exact Ty.varsIn_infer.mpr (by decide)

theorem rollbackTrial_exact_linked :
    let t : InferTable :=
      ⟨[1, 1], [0, 1], [none, none], [.general, .general], [.rank 1 0, .parent 0 0]⟩
    let t' : InferTable := ⟨[1, 1, 2], [0, 1, 0], [none, some (.prim .i32), none],
      [.general, .general, .intLit], [.bind 1, .rank 1 0, .parent 0 0]⟩
    t'.rollbackTrial t.trialMark = .ok t ∧ (Run Pool.numbered ownType .empty t → t.Closed) := by
  refine rollbackTrial_exact (run_linked.mono fun _ _ _ => trivial) ?_
  refine .op (.op .refl (.fresh (show InferTable.fresh _ .intLit = _ from rfl))) ?_
  exact .unify (a := .infer 0) (b := .prim .i32) (r := .ok ()) trivial trivial
    (show (Types.unify _ 4 _ _).run.run _ = _ from rfl)

/-- A walk to a root that takes `k` steps ends when it may take as many. -/
theorem InferTable.root_eq_ok {v k : ℕ} (hroot : t.up (t.up^[k] v) = t.up^[k] v)
    (hinside : ∀ v < t.varCount, t.up v < t.varCount) (hv : v < t.varCount) (hk : k ≤ fuel) :
    t.root (fuel + 1) v = .ok (t.up^[k] v) := by
  have hcolumn : ∀ v < t.varCount, column t.parent v = .ok (t.up v) := fun v hv => by
    have hsome : t.parent[v]? = some (t.parent.get ⟨v, hv⟩) := List.getElem?_eq_getElem hv
    rw [column_eq_ok, up_eq hsome, hsome]
  induction k generalizing v fuel with
  | zero =>
    rw [root, hcolumn v hv]
    exact if_neg (not_not.mpr hroot)
  | succ k ih =>
    rw [root, hcolumn v hv]
    by_cases hself : t.up v = v
    · refine (if_neg (not_not.mpr hself)).trans ?_
      rw [iterate_fixed hself]
      rfl
    · refine (if_pos hself).trans ?_
      cases fuel with
      | zero => exact absurd hk (Nat.not_succ_le_zero k)
      | succ fuel => exact ih hroot (hinside v hv) (Nat.le_of_succ_le_succ hk)

/-- **Union by rank stays logarithmic**: after any run, with its rollbacks, following parents reaches a
root in at most its rank's number of steps, a class has at least two to the power of its root's rank
members, and a walk to a root ends within the logarithm of the number of variables. -/
theorem union_by_rank (hreach : Run pool anyType .empty t) :
    (∀ v < t.varCount, ∃ k r, t.up^[k] v = r ∧ t.up r = r ∧ r < t.varCount ∧ k ≤ t.rankOf r) ∧
      (∀ r < t.varCount, t.up r = r → 2 ^ t.rankOf r ≤ (Forest.members t.varCount t.up r).card) ∧
      ∀ v < t.varCount, ∃ r, t.root (Nat.log 2 t.varCount + 1) v = .ok r := by
  obtain ⟨-, hsound⟩ := hreach.extends sound_empty
  have hranked := hsound.ranked
  refine ⟨fun v hv => ?_, hranked.full, fun v hv => ?_⟩
  · obtain ⟨k, r, hk, hr, hrn, hle⟩ := hranked.climb hv
    exact ⟨k, r, hk, hr, hrn, by omega⟩
  · obtain ⟨k, r, rfl, hr, hrn, hle⟩ := hranked.climb hv
    have hlog := hranked.rank_le hrn hr
    exact ⟨_, root_eq_ok hr hranked.inside hv (by omega)⟩

theorem union_by_rank_linked :
    let t : InferTable :=
      ⟨[1, 1], [0, 1], [none, none], [.general, .general], [.rank 1 0, .parent 0 0]⟩
    (∀ v < t.varCount, ∃ k r, t.up^[k] v = r ∧ t.up r = r ∧ r < t.varCount ∧ k ≤ t.rankOf r) ∧
      (∀ r < t.varCount, t.up r = r → 2 ^ t.rankOf r ≤ (Forest.members t.varCount t.up r).card) ∧
      ∀ v < t.varCount, ∃ r, t.root (Nat.log 2 t.varCount + 1) v = .ok r :=
  union_by_rank (run_linked.mono fun _ _ _ => trivial)

end

end HdLang.Types
