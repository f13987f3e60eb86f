import HdLang.Lib.Outcome

/-!
# Readers at a position

A reader looks at a list from a position and moves the position past what it read, or stops with an
error. `Reads N r bs a` says that `r` reads the stretch `bs`, wherever it stands, as `a`: this is
what a writer and its reader owe each other, and `Reads.bind` composes it along a program. `Spans`
names the stretch between two positions, for the other direction: what a reader that did not stop
must have seen.

Positions are numbers of a machine, so that a reader may stop where one would reach `N`.
-/

namespace Cursor

open List

variable {β ε α γ : Type}

/-- A program that reads a list from a position. -/
abbrev Reader (β ε α : Type) := List β → StateT ℕ (Except ε) α

/-- Wherever `bs` stands, as long as it ends below `N`, `r` reads it as `a`. -/
def Reads (N : ℕ) (r : Reader β ε α) (bs : List β) (a : α) : Prop :=
  ∀ pre post, pre.length + bs.length < N →
    (r (pre ++ bs ++ post)).run pre.length = .ok (a, pre.length + bs.length)

namespace Reads

variable {N : ℕ} {r : Reader β ε α} {k : α → Reader β ε γ} {bs cs : List β} {a : α} {c : γ}

protected theorem pure (a : α) : Reads (ε := ε) N (fun _ : List β => pure a) [] a := by
  intro pre post _
  show Except.ok (a, pre.length) = .ok (a, pre.length + 0)
  rw [Nat.add_zero]

protected theorem bind (hr : Reads N r bs a) (hk : Reads N (k a) cs c) :
    Reads N (fun b => r b >>= fun x => k x b) (bs ++ cs) c := by
  intro pre post hlen
  rw [length_append] at hlen
  have hfirst := hr pre (cs ++ post) (by omega)
  have hsecond := hk (pre ++ bs) post (by rw [length_append]; omega)
  have hlist : pre ++ (bs ++ cs) ++ post = pre ++ bs ++ (cs ++ post) := by
    simp only [append_assoc]
  have hlist' : pre ++ bs ++ cs ++ post = pre ++ bs ++ (cs ++ post) := by
    simp only [append_assoc]
  rw [hlist', length_append] at hsecond
  rw [hlist, StateT.run_bind, hfirst]
  show (k a (pre ++ bs ++ (cs ++ post))).run (pre.length + bs.length) = _
  rw [hsecond, length_append, Nat.add_assoc]

/-- The last step of a program only packs up what was read. -/
theorem ret (hr : Reads N r bs a) (f : α → γ) :
    Reads N (fun b => r b >>= fun x => pure (f x)) bs (f a) := by
  have h := hr.bind (k := fun x _ => pure (f x)) (Reads.pure (f a))
  rwa [append_nil] at h

/-- A stretch that does not end below `N` need not be readable. -/
theorem of_lt (h : bs.length < N → Reads N r bs a) : Reads N r bs a := by
  intro pre post hlen
  exact h (by omega) pre post hlen

theorem congr {bs' : List β} {a' : α} (h : Reads N r bs a) (hbs : bs = bs') (ha : a = a') :
    Reads N r bs' a' := by
  rwa [← hbs, ← ha]

end Reads

/-- `bs` is what stands in `b` from `i` up to `j`. -/
def Spans (b : List β) (i j : ℕ) (bs : List β) : Prop :=
  ∃ pre post, b = pre ++ bs ++ post ∧ i = pre.length ∧ j = pre.length + bs.length

theorem Reads.run_eq {N : ℕ} {r : Reader β ε α} {b bs : List β} {a : α} {i j : ℕ}
    (h : Reads N r bs a) (hspans : Spans b i j bs) (hj : j < N) : (r b).run i = .ok (a, j) := by
  obtain ⟨pre, post, rfl, rfl, rfl⟩ := hspans
  exact h pre post hj

namespace Spans

variable {b bs cs : List β} {i j k : ℕ}

theorem of_le (h : i ≤ j) (hb : j ≤ b.length) : Spans b i j ((b.drop i).take (j - i)) := by
  have hlen : (List.take (j - i) (b.drop i)).length = j - i := by
    rw [length_take, length_drop]
    omega
  refine ⟨b.take i, b.drop j, ?_, ?_, ?_⟩
  · have hdrop : b.drop j = (b.drop i).drop (j - i) := by rw [drop_drop]; congr 1; omega
    rw [hdrop, append_assoc, take_append_drop, take_append_drop]
  · rw [length_take]
    omega
  · rw [hlen, length_take]
    omega

theorem nil (h : i ≤ b.length) : Spans b i i [] :=
  ⟨b.take i, b.drop i, by simp, by rw [length_take]; omega, by
    rw [length_take, length_nil]; omega⟩

theorem append (h : Spans b i j bs) (h' : Spans b j k cs) : Spans b i k (bs ++ cs) := by
  obtain ⟨pre, post, rfl, rfl, rfl⟩ := h
  obtain ⟨pre', post', heq, hlen, rfl⟩ := h'
  have hpre : pre ++ bs = pre' := by
    rw [append_assoc pre' cs post'] at heq
    exact append_inj_left heq (by rw [length_append, hlen])
  refine ⟨pre, post', ?_, rfl, ?_⟩
  · rw [heq, ← hpre]
    simp only [append_assoc]
  · rw [← hlen, length_append, Nat.add_assoc]

theorem eq_add (h : Spans b i j bs) : j = i + bs.length := by
  obtain ⟨pre, post, -, rfl, rfl⟩ := h
  rfl

theorem split (h : Spans b i k (bs ++ cs)) :
    Spans b i (i + bs.length) bs ∧ Spans b (i + bs.length) k cs := by
  obtain ⟨pre, post, rfl, rfl, rfl⟩ := h
  refine ⟨⟨pre, cs ++ post, ?_, rfl, rfl⟩, pre ++ bs, post, ?_, ?_, ?_⟩
  · simp only [append_assoc]
  · simp only [append_assoc]
  · rw [length_append]
  · rw [length_append, length_append, Nat.add_assoc]

theorem mono (h : Spans b i j bs) (c : List β) : Spans (b ++ c) i j bs := by
  obtain ⟨pre, post, rfl, rfl, rfl⟩ := h
  exact ⟨pre, post ++ c, by simp only [append_assoc], rfl, rfl⟩

theorem whole (b : List β) : Spans b 0 b.length b := ⟨[], [], by simp, rfl, by simp⟩

theorem take_drop_eq (h : Spans b i j bs) : (b.drop i).take (j - i) = bs := by
  obtain ⟨pre, post, rfl, rfl, rfl⟩ := h
  rw [Nat.add_sub_cancel_left, append_assoc, drop_left, take_left]

theorem getElem?_eq {x : β} (h : Spans b i j (x :: bs)) : b[i]? = some x := by
  obtain ⟨pre, post, rfl, rfl, rfl⟩ := h
  rw [append_assoc, List.getElem?_append_right (Nat.le_refl _), Nat.sub_self]
  rfl

theorem of_getElem? {x : β} (h : b[i]? = some x) : Spans b i (i + 1) [x] := by
  obtain ⟨hi, hx⟩ := List.getElem?_eq_some_iff.mp h
  refine ⟨b.take i, b.drop (i + 1), ?_, ?_, ?_⟩
  · rw [append_assoc, singleton_append, ← hx, ← drop_eq_getElem_cons hi, take_append_drop]
  · rw [length_take]
    omega
  · rw [length_take, length_singleton]
    omega

theorem le_length (h : Spans b i j bs) : j ≤ b.length := by
  obtain ⟨pre, post, rfl, rfl, rfl⟩ := h
  simp only [length_append]
  omega

end Spans

end Cursor
