import Mathlib.Order.WithBot

/-!
# Forward data flow

The facts of a flow graph whose blocks are numbered: a block's facts at its entry are the meet of
what its predecessors' ends bring, `⊤` where no path comes. `table n` is what a walk in block order
knows after the blocks before `n`. Where every edge leads to a later block, the walk meets each block
with its final facts (`fact`), and a solution that is no stronger than it need be is these facts
(`eq_fact`).
-/

universe u

/-- A flow graph: the facts at the entry of block `0`, each block's successors, and the facts at a
block's end by those at its entry. -/
structure DataFlow (α : Type u) where
  entry : α
  next : ℕ → List ℕ
  out : ℕ → α → α

namespace DataFlow

variable {α : Type u} [SemilatticeInf α] (G : DataFlow α)

/-- The facts that block `p` brings to its successors by those at its entry. -/
def brings (p : ℕ) (k : WithTop α) : WithTop α := k.map (G.out p)

/-- What the blocks before `n` have brought to each block. -/
@[grind =] def table : ℕ → ℕ → WithTop α
  | 0, q => if q = 0 then (G.entry : WithTop α) else ⊤
  | n + 1, q =>
    if q ∈ G.next n then table n q ⊓ G.brings n (table n n) else table n q

/-- The facts at the entry of block `q` of a graph whose edges lead to later blocks. -/
def fact (q : ℕ) : WithTop α := G.table q q

theorem table_antitone {m n : ℕ} (hmn : m ≤ n) (q : ℕ) : G.table n q ≤ G.table m q := by
  induction n, hmn using Nat.le_induction with
  | base => exact le_refl _
  | succ n _ ih =>
    rw [table]
    split
    · exact inf_le_left.trans ih
    · exact ih

variable {G}

/-- The edges of the blocks before `size` lead to later blocks. -/
def Forward (G : DataFlow α) (size : ℕ) : Prop := ∀ p < size, ∀ q ∈ G.next p, p < q

/-- The transfers keep the order of facts. -/
def Mono (G : DataFlow α) : Prop := ∀ p, Monotone (G.out p)

theorem Mono.brings (hmono : G.Mono) (p : ℕ) : Monotone (G.brings p) := (hmono p).withTop_map

/-- A block's facts are below what each of its predecessors brings. -/
theorem fact_le_brings {size p q : ℕ} (hforward : G.Forward size) (hp : p < size)
    (hq : q ∈ G.next p) : G.fact q ≤ G.brings p (G.fact p) := by
  have hpq : p < q := hforward p hp q hq
  calc G.fact q ≤ G.table (p + 1) q := G.table_antitone hpq q
    _ = G.table p q ⊓ G.brings p (G.fact p) := by rw [table, if_pos hq, fact]
    _ ≤ G.brings p (G.fact p) := inf_le_right

theorem fact_zero_le : G.fact 0 ≤ G.entry := le_of_eq (by simp [fact, table])

/-- **The facts are the weakest solution**: a solution whose facts are nowhere below them is them. -/
theorem eq_fact {size : ℕ} {F : ℕ → WithTop α} (hentry : F 0 ≤ G.entry)
    (hclosed : ∀ p < size, ∀ q ∈ G.next p, F q ≤ G.brings p (F p))
    (hlow : ∀ q < size, G.fact q ≤ F q) : ∀ q < size, F q = G.fact q := by
  intro q
  induction q using Nat.strong_induction_on with
  | _ q ih =>
    intro hq
    refine le_antisymm ?_ (hlow q hq)
    -- by what the blocks before `n` brought, for every `n` up to `q`
    have hupto : ∀ n ≤ q, F q ≤ G.table n q := by
      intro n
      induction n with
      | zero =>
        intro _
        rw [table]
        split
        · next h => exact h ▸ hentry
        · exact le_top
      | succ n ihn =>
        intro hn
        rw [table]
        split
        · next hmem =>
          refine le_inf (ihn (Nat.le_of_succ_le hn)) ?_
          calc F q ≤ G.brings n (F n) := hclosed n (by omega) q hmem
            _ = G.brings n (G.table n n) := by rw [ih n hn (by omega), fact]
        · exact ihn (Nat.le_of_succ_le hn)
    exact hupto q le_rfl

end DataFlow
