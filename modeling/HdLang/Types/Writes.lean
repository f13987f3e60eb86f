import HdLang.Types.Variables

/-!
# What a unification writes

A unification changes its table in two ways: it binds an open variable, and it links one open variable
to another. What both keep (`Kept`), every unification keeps, however it ends (`unify_leads`).
-/

namespace HdLang.Types

open InferTable List Attempts

/-! ### Linking -/

variable {x y : ℕ}

namespace InferTable

variable {root : ℕ}

theorem setParent_eq_ok {t t' : InferTable} {child : ℕ} (h : t.setParent child root = .ok t') :
    ∃ old, t.parent[child]? = some old ∧
      t' = { t with parent := t.parent.set child root, trail := .parent child old :: t.trail } := by
  obtain ⟨old, hold, h⟩ := bind_eq_ok.mp h
  obtain ⟨parent, hparent, h⟩ := bind_eq_ok.mp h
  obtain ⟨-, rfl⟩ := store_eq_ok.mp hparent
  exact ⟨old, column_eq_ok.mp hold, (Except.ok.inj h).symm⟩

theorem raiseRank_eq_ok {t t' : InferTable} {rank : ℕ} (h : t.raiseRank root rank = .ok t') :
    t' = { t with
      rank := t.rank.set root ((rank + 1) % 256), trail := .rank root rank :: t.trail } := by
  obtain ⟨ranks, hranks, h⟩ := bind_eq_ok.mp h
  obtain ⟨-, rfl⟩ := store_eq_ok.mp hranks
  exact (Except.ok.inj h).symm

theorem setKind_eq_ok {t t' : InferTable} {merged : VarKind} (h : t.setKind root merged = .ok t') :
    t' = t ∨ ∃ old, t.kind[root]? = some old ∧
      t' = { t with kind := t.kind.set root merged, trail := .kind root old :: t.trail } := by
  obtain ⟨old, hold, h⟩ := bind_eq_ok.mp h
  split at h
  · obtain ⟨kind, hkind, h⟩ := bind_eq_ok.mp h
    obtain ⟨-, rfl⟩ := store_eq_ok.mp hkind
    exact .inr ⟨old, column_eq_ok.mp hold, (Except.ok.inj h).symm⟩
  · exact .inl (Except.ok.inj h).symm

/-- What a link does: the root of lower rank, the first one on a tie, gets the other for its parent. -/
theorem link_cases {t t' : InferTable} {k : VarKind} (h : t.link x y k = .ok t') :
    ∃ child root rc rr t₁ t₂, (child = x ∧ root = y ∨ child = y ∧ root = x) ∧
      t.rank[child]? = some rc ∧ t.rank[root]? = some rr ∧ rc ≤ rr ∧
      t.setParent child root = .ok t₁ ∧
      (if rc = rr then t₁.raiseRank root rr else .ok t₁) = .ok t₂ ∧
      t₂.setKind root k = .ok t' := by
  obtain ⟨rx, hrx, h⟩ := bind_eq_ok.mp h
  obtain ⟨ry, hry, h⟩ := bind_eq_ok.mp h
  rw [column_eq_ok] at hrx hry
  by_cases hlt : rx > ry
  · rw [if_pos hlt] at h
    obtain ⟨t₁, h₁, h⟩ := bind_eq_ok.mp h
    obtain ⟨t₂, h₂, h⟩ := bind_eq_ok.mp h
    rw [if_neg (Nat.ne_of_gt hlt)] at h₂
    refine ⟨y, x, ry, rx, t₁, t₂, .inr ⟨rfl, rfl⟩, hry, hrx, Nat.le_of_lt hlt, h₁, ?_, h⟩
    rw [if_neg (Nat.ne_of_lt hlt)]
    exact h₂
  · rw [if_neg hlt] at h
    obtain ⟨t₁, h₁, h⟩ := bind_eq_ok.mp h
    obtain ⟨t₂, h₂, h⟩ := bind_eq_ok.mp h
    exact ⟨x, y, rx, ry, t₁, t₂, .inl ⟨rfl, rfl⟩, hrx, hry, Nat.le_of_not_lt hlt, h₁, h₂, h⟩

theorem raise_cases {t t' : InferTable} {rank : ℕ} {tie : Prop} [Decidable tie]
    (h : (if tie then t.raiseRank root rank else .ok t) = .ok t') :
    tie ∧ t' = { t with
        rank := t.rank.set root ((rank + 1) % 256), trail := .rank root rank :: t.trail } ∨
      ¬tie ∧ t' = t := by
  split at h
  · next htie => exact .inl ⟨htie, raiseRank_eq_ok h⟩
  · next htie => exact .inr ⟨htie, (Except.ok.inj h).symm⟩

/-- A link keeps the number of variables, and the bindings. -/
theorem link_frame {t t' : InferTable} {k : VarKind} (h : t.link x y k = .ok t') :
    t'.varCount = t.varCount ∧ t'.binding = t.binding := by
  obtain ⟨child, root, rc, rr, t₁, t₂, -, -, -, -, h₁, h₂, h₃⟩ := link_cases h
  obtain ⟨old, -, rfl⟩ := setParent_eq_ok h₁
  obtain ⟨-, rfl⟩ | ⟨-, rfl⟩ := raise_cases h₂ <;>
    obtain rfl | ⟨kr, -, rfl⟩ := setKind_eq_ok h₃ <;>
    exact ⟨length_set, rfl⟩

end InferTable

/-! ### Unifying -/

variable {p : ℕ → Prop} {R : InferTable → InferTable → Prop} {t t' : InferTable} {α β : Type}

/-- A relation between a table and what becomes of it, kept by the writes of a unification whose types
mention the variables of `p`. -/
structure Kept (p : ℕ → Prop) (R : InferTable → InferTable → Prop) : Prop where
  refl : ∀ t, R t t
  trans : ∀ {t t' t''}, R t t' → R t' t'' → R t t''
  bind : ∀ {t v ty}, t.Open v → ty.VarsIn p →
    R t { t with binding := t.binding.set v (some ty), trail := .bind v :: t.trail }
  link : ∀ {t t' x y k}, t.Open x → t.Open y → x ≠ y → t.link x y k = .ok t' → R t t'

/-- Run from `t`, `m` keeps `R`, and the variables of the table and its bindings, also when it fails. -/
def Leads (p : ℕ → Prop) (R : InferTable → InferTable → Prop) (m : Unifying α) (t : InferTable) : Prop :=
  t.Holds p → Attempts (fun _ => True) m (fun _ t' => R t t' ∧ t'.Holds p) t

namespace Leads

variable (hR : Kept p R)
include hR

theorem pure (a : α) : Leads p R (Pure.pure a) t := fun ht =>
  pure_iff.mpr ⟨hR.refl t, ht⟩

theorem throw (e : UnifyError) : Leads p R (throw e : Unifying α) t := fun ht =>
  throw_iff.mpr ⟨hR.refl t, ht⟩

omit hR in
theorem halt (e : Halt) : Leads p R (liftM (Except.error e : Except Halt α) : Unifying α) t :=
  fun _ => lift_iff.mpr ⟨fun _ h => (nomatch h), fun _ _ => trivial⟩

theorem bind {m : Unifying α} {f : α → Unifying β} (hm : Leads p R m t) (hf : ∀ a t, Leads p R (f a) t) :
    Leads p R (m >>= f) t := fun ht => by
  refine bind_iff.mpr ((hm ht).mono fun r t₁ h₁ => ?_)
  cases r with
  | error e => exact h₁
  | ok a => exact (hf a t₁ h₁.2).mono fun _ _ h₂ => ⟨hR.trans h₁.1 h₂.1, h₂.2⟩

omit hR in
theorem read {f : InferTable → Unifying α} (h : Leads p R (f t) t) :
    Leads p R (get >>= f) t := fun ht =>
  bind_iff.mpr (get_iff.mpr (h ht))

omit hR in
/-- A computation first that gives nothing or leaves the table alone. -/
theorem lift {y : Except Halt β} {f : β → Unifying α} (h : ∀ b, y = .ok b → Leads p R (f b) t) :
    Leads p R (liftM y >>= f) t := fun ht =>
  bind_iff.mpr (lift_iff.mpr ⟨fun b hb => h b hb ht, fun _ _ => trivial⟩)

theorem forM {l : List β} {f : β → Unifying PUnit} (hf : ∀ b ∈ l, ∀ t, Leads p R (f b) t) :
    Leads p R (l.forM f) t := by
  induction l generalizing t with
  | nil => exact Leads.pure hR _
  | cons b l ih =>
    refine Leads.bind hR (hf b mem_cons_self t) fun _ t => ?_
    exact ih fun c hc => hf c (mem_cons_of_mem _ hc)

end Leads

variable {pool : Pool}

section

variable (hR : Kept p R) {fuel : ℕ} {a b : Ty}
include hR

theorem bind_leads {v : ℕ} {ty : Ty} (hv : t.Open v) (hty : ty.VarsIn p) :
    Leads p R (bind fuel v ty) t := by
  apply Leads.read
  refine Leads.lift fun occ _ => ?_
  split
  · exact Leads.throw hR _
  · refine Leads.lift fun k _ => ?_
    split
    · refine Leads.lift fun binding hb => ?_
      obtain ⟨-, rfl⟩ := store_eq_ok.mp hb
      refine fun ht => set_iff.mpr ⟨hR.bind hv hty, ht.vars, fun u hu => ?_⟩
      obtain hu | hu := mem_or_eq_of_mem_set hu
      · exact ht.bound u hu
      · obtain rfl := Option.some.inj hu
        exact hty
    · exact Leads.throw hR _

theorem bindClass_leads {ty : Ty} (hx : t.Open x) (hty : ty.VarsIn p) :
    Leads p R (bindClass fuel x ty) t := by
  apply Leads.read
  refine Leads.lift fun r hr => ?_
  obtain rfl := root_self hx.1 hr
  exact bind_leads hR hx hty

theorem unifyVars_leads (hx : t.Open x) (hy : t.Open y) :
    Leads p R (unifyVars fuel x y a b) t := by
  apply Leads.read
  refine Leads.lift fun r hr => ?_
  obtain rfl := root_self hx.1 hr
  refine Leads.lift fun s hs => ?_
  obtain rfl := root_self hy.1 hs
  refine Leads.lift fun kx _ => ?_
  refine Leads.lift fun ky _ => ?_
  split
  · exact Leads.throw hR _
  · next merged _ =>
    split
    · exact Leads.pure hR _
    · next hne =>
      refine Leads.lift fun t' ht' => fun ht => set_iff.mpr ⟨hR.link hx hy hne ht', ?_⟩
      obtain ⟨hcount, hbinding⟩ := link_frame ht'
      exact ⟨by rw [hcount]; exact ht.vars, by rw [hbinding]; exact ht.bound⟩

variable {u : Ty → Ty → Unifying Unit} (hu : ∀ a b, a.VarsIn p → b.VarsIn p → ∀ t, Leads p R (u a b) t)
include hu

theorem unifyLists_leads {l₁ l₂ : List Ty} (h₁ : ∀ c ∈ l₁, c.VarsIn p) (h₂ : ∀ c ∈ l₂, c.VarsIn p) :
    Leads p R (unifyLists u l₁ l₂ a b) t := by
  unfold unifyLists
  split
  · exact Leads.throw hR _
  · refine Leads.forM hR fun q hq t => ?_
    exact hu _ _ (h₁ _ (of_mem_zip hq).1) (h₂ _ (of_mem_zip hq).2) t

omit hR hu in
/-- A resolved row mentions the table's variables. -/
theorem resolveRow_holds {r r' : RowData Ty} (ht : t.Holds p)
    (h : resolveRow pool (t.resolve pool fuel) r = .ok r') : ∀ k ∈ r'.keys, k.VarsIn p :=
  resolveRow_varsIn (fun _ _ _ hk => (resolve_open hk).mono fun v hv => ht.vars v hv.lt) h

omit hu in
theorem unifyDataRows_leads {r₁ r₂ : RowData Ty} :
    Leads p R (unifyDataRows pool fuel r₁ r₂ a b) t := by
  apply Leads.read
  refine Leads.lift fun d₁ h₁ => Leads.lift fun d₂ h₂ => ?_
  -- the variable of a resolved row is open
  have hopen : ∀ {r d : RowData Ty} {v}, resolveRow pool (t.resolve pool fuel) r = .ok d →
      rowVariable d = some v → t.Open v := by
    intro r d v hd hv
    unfold rowVariable at hv
    split at hv
    · next hkeys _ =>
      obtain rfl := Option.some.inj hv
      have := resolveRow_varsIn (p := t.Open) (fun _ _ _ hk => resolve_open hk) hd
      rw [hkeys] at this
      exact Ty.varsIn_infer.mp (this _ mem_cons_self)
    · cases hv
  split
  · exact Leads.pure hR _
  · split
    · next hv =>
      exact fun ht => bindClass_leads hR (hopen h₁ hv)
        (Ty.varsIn_of_children rfl (resolveRow_holds ht h₂)) ht
    · next hv =>
      exact fun ht => bindClass_leads hR (hopen h₂ hv)
        (Ty.varsIn_of_children rfl (resolveRow_holds ht h₁)) ht
    · exact Leads.throw hR _

theorem unifyContextRows_leads {r₁ r₂ : RowData Ty} :
    Leads p R (unifyContextRows pool fuel u r₁ r₂ a b) t := by
  apply Leads.read
  refine Leads.lift fun d₁ h₁ => Leads.lift fun d₂ h₂ => ?_
  split
  · exact Leads.throw hR _
  · intro ht
    have hkeys₁ := resolveRow_holds ht h₁
    have hkeys₂ := resolveRow_holds ht h₂
    refine Leads.bind hR (Leads.forM hR fun k₁ hk₁ t => ?_) (fun _ t => ?_) ht
    · split
      · exact Leads.pure hR _
      · split
        · next d _ _ _ _ k₂ _ hk₂ =>
          have hmem : k₂ ∈ d₂.keys := by
            unfold only at hk₂
            split at hk₂
            · next l hl =>
              obtain rfl := Option.some.inj hk₂
              exact mem_of_mem_filter (hl ▸ mem_cons_self)
            · cases hk₂
          exact hu _ _ (hkeys₁ k₁ hk₁) (hkeys₂ k₂ hmem) t
        · exact Leads.pure hR _
    · apply Leads.read
      refine Leads.lift fun _ _ => Leads.lift fun _ _ => ?_
      split
      · exact Leads.pure hR _
      · exact Leads.throw hR _

theorem unifyFns_leads {p₁ p₂ : List Ty} {r₁ r₂ : Ty} {i₁ i₂ : Inputs} (hp₁ : ∀ c ∈ p₁, c.VarsIn p)
    (hp₂ : ∀ c ∈ p₂, c.VarsIn p) (hr₁ : r₁.VarsIn p) (hr₂ : r₂.VarsIn p)
    : Leads p R (unifyFns u p₁ p₂ r₁ r₂ i₁ i₂ a b) t := by
  have hresult : ∀ t, Leads p R (u r₁ r₂) t := hu _ _ hr₁ hr₂
  unfold unifyFns
  split
  · exact Leads.bind hR (unifyLists_leads hR hu hp₁ hp₂) fun _ => hresult
  · split
    · exact Leads.bind hR
        (hu _ _ (Pool.varsIn_inputsTuple hp₁) (Pool.varsIn_inputsTuple hp₂) t) fun _ => hresult
    · exact Leads.bind hR (Leads.throw hR _) fun _ => hresult

theorem unifyShapes_leads (ha : a.VarsIn p) (hb : b.VarsIn p) :
    Leads p R (unifyShapes pool fuel u a b) t := by
  have hlist : ∀ {l₁ l₂ : List Ty}, (∀ c ∈ l₁, c ∈ a.children) → (∀ c ∈ l₂, c ∈ b.children) →
      ∀ t, Leads p R (unifyLists u l₁ l₂ a b) t := fun h₁ h₂ _ =>
    unifyLists_leads hR hu (fun c hc => ha.child (h₁ c hc)) (fun c hc => hb.child (h₂ c hc))
  have hpart : ∀ {c d : Ty}, c ∈ a.children → d ∈ b.children → ∀ t, Leads p R (u c d) t :=
    fun hc hd => hu _ _ (ha.child hc) (hb.child hd)
  unfold unifyShapes
  split
  · split
    · exact hpart mem_cons_self mem_cons_self t
    · exact Leads.throw hR _
  · split
    · exact Leads.bind hR (hlist (fun _ => mem_cons_of_mem _) (fun _ => mem_cons_of_mem _) t)
        fun _ => hpart mem_cons_self mem_cons_self
    · exact Leads.throw hR _
  · split
    · exact hlist (fun _ => id) (fun _ => id) t
    · exact Leads.throw hR _
  · exact hlist (fun _ => mem_append_left _) (fun _ => mem_append_left _) t
  · have hlast : ∀ {l : List Ty} {r : Ty}, r ∈ l ++ (some r).toList := by simp
    exact Leads.bind hR (hlist (fun _ => mem_append_left _) (fun _ => mem_append_left _) t)
      fun _ => hpart hlast hlast
  · exact hlist (fun _ => id) (fun _ => id) t
  · exact hpart mem_cons_self mem_cons_self t
  · split
    · exact hlist (fun _ => mem_append_left _) (fun _ => mem_append_left _) t
    · exact Leads.throw hR _
  · split
    · exact Leads.bind hR (hpart mem_cons_self mem_cons_self t) fun _ =>
        hlist (fun _ => mem_cons_of_mem _) (fun _ => mem_cons_of_mem _)
    · exact Leads.throw hR _
  · have hresult : ∀ {l m : List Ty} {r : Ty}, r ∈ l ++ r :: m := by simp
    split
    · exact unifyFns_leads hR hu (fun c hc => ha.child (mem_append_left _ hc))
        (fun c hc => hb.child (mem_append_left _ hc)) (ha.child hresult) (hb.child hresult)
    · exact Leads.throw hR _
  · exact unifyContextRows_leads hR hu
  · exact unifyDataRows_leads hR
  · exact Leads.throw hR _

theorem unifyArms_leads (ha : a.VarsIn p) (hb : b.VarsIn p) (hopena : ∀ v, a = .infer v → t.Open v)
    (hopenb : ∀ v, b = .infer v → t.Open v) :
    Leads p R (unifyArms pool fuel u a b) t := by
  have hpart : ∀ {c d : Ty}, c.VarsIn p → d.VarsIn p → Leads p R (u c d) t := fun hc hd => hu _ _ hc hd t
  have hgeneral : ∀ {x : ℕ} {m : Bool → Unifying Unit}, (∀ g, Leads p R (m g) t) →
      Leads p R (isGeneral fuel x >>= m) t := by
    intro x m hm ht
    refine bind_iff.mpr (bind_iff.mpr (get_iff.mpr ?_))
    refine bind_iff.mpr (lift_iff.mpr ⟨fun r _ => ?_, fun _ _ => trivial⟩)
    refine bind_iff.mpr (lift_iff.mpr ⟨fun k _ => ?_, fun _ _ => trivial⟩)
    exact pure_iff.mpr (hm _ ht)
  unfold unifyArms
  split
  · exact Leads.pure hR _
  · exact Leads.pure hR _
  · next x y =>
    refine hgeneral fun g => ?_
    split
    · exact bindClass_leads hR (hopena x rfl) hb
    · exact hpart ha (hb.child mem_cons_self)
  · next x y =>
    refine hgeneral fun g => ?_
    split
    · exact bindClass_leads hR (hopenb y rfl) ha
    · exact hpart (ha.child mem_cons_self) hb
  · exact hpart (ha.child mem_cons_self) (hb.child mem_cons_self)
  · exact hpart (ha.child mem_cons_self) hb
  · exact hpart ha (hb.child mem_cons_self)
  · exact unifyVars_leads hR (hopena _ rfl) (hopenb _ rfl)
  · exact bindClass_leads hR (hopena _ rfl) hb
  · exact bindClass_leads hR (hopenb _ rfl) ha
  · exact unifyShapes_leads hR hu ha hb

end

/-- **A unification** writes nothing but what binding and linking open variables write. -/
theorem unify_leads (hR : Kept p R) {fuel : ℕ} {a b : Ty} (ha : a.VarsIn p) (hb : b.VarsIn p)
    : Leads p R (unify pool fuel a b) t := by
  induction fuel generalizing a b t with
  | zero => exact Leads.halt _
  | succ fuel ih =>
    apply Leads.read
    refine Leads.lift fun a' ha' => Leads.lift fun b' hb' => ?_
    split
    · exact Leads.pure hR _
    · intro ht
      exact unifyArms_leads hR (fun _ _ hc hd _ => ih hc hd) (shallow_varsIn ht ha ha')
        (shallow_varsIn ht hb hb') (fun v hv => shallow_open (hv ▸ ha'))
        (fun v hv => shallow_open (hv ▸ hb')) ht

end HdLang.Types
