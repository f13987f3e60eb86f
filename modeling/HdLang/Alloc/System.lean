import HdLang.Alloc.Interface
import HdLang.Lib.Transition

/-!
# The allocator in a program

A `World` is a program's heap, the blocks it holds and the pages that are not the allocator's: those
of its static data and those other parts of it grew. `Step` is one call of the allocator, one growth
by another part, or one write by the program to memory it owns. `Shape.Step` is the abstract
system, and `step_refines` says that the program's heap stands for one of its shapes as long as no
allocation's size is past what the build's arithmetic holds.
-/

namespace HdLang

open ByteMem Ensures List Function

namespace Alloc

open PointerList

/-! ### Worlds and steps -/

/-- A block the program holds: where it is and how many bytes it asked for. -/
structure Block where
  address : ℕ
  size : ℕ
  deriving DecidableEq, Repr

/-- A program's memory. -/
structure World where
  heap : Heap
  /-- The blocks that are handed out and not freed. -/
  blocks : List Block
  /-- The first page and the count of each range of pages that is not the allocator's. -/
  foreign : List (ℕ × ℕ)

namespace World

/-- `a` is in a page of static data or one that another part of the program grew. -/
def Foreign (w : World) (a : ℕ) : Prop :=
  ∃ r ∈ w.foreign, r.1 ≤ a / PAGE ∧ a / PAGE < r.1 + r.2

/-- The bytes of a block, as `block_bytes` gives them. -/
def bytes (w : World) (k : Block) : ℕ :=
  match (blockBytes k.address).run w.heap with
  | .ok (n, _) => n
  | .error _ => 0

/-- `a` is an address in the block `k`. -/
def InBlock (w : World) (k : Block) (a : ℕ) : Prop :=
  k.address ≤ a ∧ a < k.address + w.bytes k

/-- `a` is the program's own: not the allocator's. -/
def Owned (w : World) (a : ℕ) : Prop := w.Foreign a ∨ ∃ k ∈ w.blocks, w.InBlock k a

/-- The program starts with its static data in the first pages and nothing allocated. -/
structure Initial (w : World) : Prop where
  fresh : Fresh w.heap
  blocks : w.blocks = []
  foreign : w.foreign = [(0, w.heap.pages)]

end World

/-- What a program does to its memory. -/
inductive Op
  | alloc (size : ℕ)
  | allocClass (size cls : ℕ)
  | freeBlock (block : Block)
  | freeClass (block : Block) (cls : ℕ)
  | reclaim
  /-- Another part of the program grows the heap. -/
  | grow (count : ℕ)
  /-- The program writes a byte of its own. -/
  | write (address : ℕ) (value : UInt8)

/-- One step of a program in the build `build`. -/
inductive Step (build : Build) : World → Op → World → Prop
  | alloc {w : World} {size b : ℕ} {h : Heap} (hsize : size < USIZE)
    (hrun : (alloc build size).run w.heap = .ok (b, h)) :
    Step build w (.alloc size) ⟨h, ⟨b, size⟩ :: w.blocks, w.foreign⟩
  | allocClass {w : World} {size cls b : ℕ} {h : Heap} (hsize : size < USIZE)
    (hcls : ClassFor size cls) (hrun : (allocClass build size cls).run w.heap = .ok (b, h)) :
    Step build w (.allocClass size cls) ⟨h, ⟨b, size⟩ :: w.blocks, w.foreign⟩
  | freeBlock {w : World} {k : Block} {h : Heap} (hk : k ∈ w.blocks)
    (hrun : (freeBlock k.address).run w.heap = .ok ((), h)) :
    Step build w (.freeBlock k) ⟨h, w.blocks.erase k, w.foreign⟩
  | freeClass {w : World} {k : Block} {cls : ℕ} {h : Heap} (hk : k ∈ w.blocks)
    (hcls : ClassFor k.size cls) (hrun : (freeClass k.address cls).run w.heap = .ok ((), h)) :
    Step build w (.freeClass k cls) ⟨h, w.blocks.erase k, w.foreign⟩
  | reclaim {w : World} {h : Heap} (hrun : reclaim.run w.heap = .ok ((), h)) :
    Step build w .reclaim ⟨h, w.blocks, w.foreign⟩
  | grow {w : World} {count first : ℕ} {h : Heap}
    (hrun : (grow count).run w.heap = .ok (some first, h)) :
    Step build w (.grow count) ⟨h, w.blocks, (first, count) :: w.foreign⟩
  | write {w : World} {a : ℕ} {v : UInt8} (ha : w.Owned a) :
    Step build w (.write a v)
      ⟨{ w.heap with mem := Function.update w.heap.mem a v }, w.blocks, w.foreign⟩

/-- The page count of an allocation does not wrap. -/
def Op.Fits (build : Build) : Op → Prop
  | .alloc size | .allocClass size _ => build = .release → size ≤ LARGEST
  | _ => True

/-- A block for `size` bytes is handed out: of their size class when they are few. -/
def Shape.Allots (S : Shape) (size b : ℕ) (S' : Shape) : Prop :=
  ∃ bytes, size ≤ bytes ∧ (size ≤ 2048 → bytes = bytesOf (sizeClass size)) ∧ Handed S b bytes S'

/-- One step of the abstract system. -/
inductive Shape.Step (S : Shape) : Op → Shape → Prop
  | alloc {size b : ℕ} {S' : Shape} (hS : S.Allots size b S') : S.Step (.alloc size) S'
  | allocClass {size cls b : ℕ} {S' : Shape} (hS : S.Allots size b S') :
    S.Step (.allocClass size cls) S'
  | freeBlock {k : Block} (hk : S.Live k.address) : S.Step (.freeBlock k) (S.release k.address)
  | freeRun {k : Block} (hk : S.Live k.address) : S.Step (.freeClass k 0) (S.release k.address)
  | freeClass {k : Block} {cls : ℕ} (hk : S.Live k.address) (hc : IsClass cls)
    (he : S.entry (k.address / PAGE) = .small cls) : S.Step (.freeClass k cls) (S.park cls k.address)
  | reclaim : S.Step .reclaim S.reclaimed
  | grow {count : ℕ} : S.Step (.grow count) S
  | write {a : ℕ} {v : UInt8} : S.Step (.write a v) S

/-! ### What a world stands for -/

/-- The addresses that are the program's own, by the shape. -/
def World.rest (w : World) (S : Shape) : Rest :=
  ⟨{a | w.Foreign a}, {a | ∃ k ∈ w.blocks, S.InBlock k.address a}⟩

/-- The blocks the program holds are those of the shape. -/
structure Holds (w : World) (S : Shape) : Prop where
  live : ∀ b, S.Live b ↔ ∃ k ∈ w.blocks, k.address = b
  nodup : (w.blocks.map Block.address).Nodup
  size : ∀ k ∈ w.blocks, k.size ≤ S.size k.address
  cls : ∀ k ∈ w.blocks, k.size ≤ 2048 → S.size k.address = bytesOf (sizeClass k.size)

/-- **The world stands for the shape.** -/
inductive Stands (w : World) : Shape → Prop
  | fresh (hF : Fresh w.heap) (hb : w.blocks = [])
    (hK : ∀ a, w.Foreign a → a < w.heap.pages * PAGE) : Stands w Shape.blank
  | ready {S : Shape} (hI : Inv S w.heap) (hK : Clear S w.heap (w.rest S)) (hB : Holds w S) :
    Stands w S

/-! ### Before the first allocation -/

/-- A computation that changes no binding that says where the allocator's memory is. -/
def Plain {α : Type} (x : Run α) : Prop :=
  ∀ h, Ensures (fun _ => True) x (fun _ h' => SameVars h h') h

namespace Plain

variable {α β : Type} {x : Run α} {f : α → Run β}

theorem bind (hx : Plain x) (hf : ∀ a, Plain (f a)) : Plain (x >>= f) := fun h => by
  rw [bind_iff]
  refine (hx h).mono fun a h₁ hv => ?_
  exact (hf a h₁).mono fun _ h₂ hv' => hv.trans hv'

theorem get_bind {g : Heap → Run β} (hf : ∀ h, Plain (g h)) : Plain (get >>= g) := fun h => by
  rw [bind_iff, get_iff]
  exact hf h h

theorem pure (a : α) : Plain (Pure.pure a : Run α) := fun h => pure_iff.mpr (SameVars.refl h)

theorem throw (e : Stop) : Plain (throw e : Run α) := fun _ => throw_iff.mpr trivial

theorem ite {c : Prop} [Decidable c] {y : Run α} (hx : Plain x) (hy : Plain y) :
    Plain (if c then x else y) := fun h => ite_iff.mpr ⟨fun _ => hx h, fun _ => hy h⟩

theorem load32 (a : ℕ) : Plain (load32 a) := get_bind fun _ => ite (pure _) (throw _)

theorem load16 (a : ℕ) : Plain (load16 a) := get_bind fun _ => ite (pure _) (throw _)

theorem set_mem (m : Heap → Mem) (c : Heap → Prop) [∀ h, Decidable (c h)] :
    Plain (do
      let h ← get
      if c h then set { h with mem := m h } else MonadExcept.throw Stop.outOfBounds) := fun h => by
  rw [bind_iff, get_iff, ite_iff]
  exact ⟨fun _ => set_iff.mpr ⟨rfl, rfl, rfl, rfl, rfl⟩, fun _ =>
    throw_iff.mpr trivial⟩

theorem store32 (a v : ℕ) : Plain (store32 a v) := set_mem (fun h => h.mem.store32 a v) fun h => a + 4 ≤ h.pages * PAGE

theorem store16 (a v : ℕ) : Plain (store16 a v) := set_mem (fun h => h.mem.store16 a v) fun h => a + 2 ≤ h.pages * PAGE

theorem fill (a v n : ℕ) : Plain (fill a v n) := set_mem (fun h => h.mem.fill a v n) fun h => a + n ≤ h.pages * PAGE

theorem lowerHint (p : ℕ) : Plain (lowerHint p) := fun h => by
  unfold Alloc.lowerHint
  rw [modify_iff]
  split <;> exact ⟨rfl, rfl, rfl, rfl, rfl⟩

theorem head (c : ℕ) : Plain (head c) := get_bind fun _ => load32 _

theorem setHead (c p : ℕ) : Plain (setHead c p) := get_bind fun _ => store32 _ _

theorem full (p c : ℕ) : Plain (full p c) := bind (load32 _) fun _ => ite
    (bind (load16 _) fun _ => bind (get_bind fun _ => load32 _) fun _ => pure _) (pure _)

theorem unlink (p c : ℕ) : Plain (unlink p c) :=
  bind (load32 _) fun _ => bind (load32 _) fun _ =>
    ite (bind (store32 _ _) fun _ => ite (store32 _ _) (pure _))
      (bind (setHead _ _) fun _ => ite (store32 _ _) (pure _))

theorem freeBlock (b : ℕ) : Plain (freeBlock b) := by
  refine bind (get_bind fun _ => load32 _) fun entry => ?_
  refine ite (get_bind fun _ => bind (fill _ _ _) fun _ => lowerHint _) (ite ?_ (pure _))
  refine bind (full _ _) fun wasFull => bind (load32 _) fun _ => bind (store32 _ _) fun _ =>
    bind (store32 _ _) fun _ => bind (load16 _) fun _ => bind (store16 _ _) fun _ =>
    bind (head _) fun first => ite ?_ (ite ?_ (pure _))
  · have hrest : Plain (do setEntry (b / PAGE) 0; Alloc.lowerHint (b / PAGE)) :=
      bind (get_bind fun _ => store32 _ _) fun _ => lowerHint _
    exact ite (bind (unlink _ _) fun _ => hrest) hrest
  · exact bind (store32 _ _) fun _ => bind (store32 _ _) fun _ =>
      ite (bind (store32 _ _) fun _ => setHead _ _) (setHead _ _)

theorem giveBack : ∀ fuel b : ℕ, Plain (giveBack fuel b)
  | 0, _ => throw _
  | fuel + 1, _ => ite (pure _) (bind (load32 _) fun _ => bind (freeBlock _) fun _ => giveBack fuel _)

theorem reclaimFrom : ∀ left c : ℕ, Plain (reclaimFrom c left)
  | 0, _ => pure _
  | left + 1, _ => get_bind fun _ => bind (load32 _) fun _ => bind (store32 _ _) fun _ =>
      bind (giveBack _ _) fun _ => reclaimFrom left _

theorem reclaim : Plain reclaim := reclaimFrom 20 1

end Plain

theorem Fresh.of_sameVars {h h' : Heap} (hF : Fresh h) (hv : SameVars h h') : Fresh h' := by
  obtain ⟨h₁, h₂, h₃, h₄, h₅⟩ := hF
  exact ⟨hv.table.trans h₁, hv.known.trans h₂, hv.pages ▸ h₃, by rw [hv.pages, hv.limit]; exact h₄,
    hv.limit ▸ h₅⟩

theorem Shape.reclaimFrom_of_freed_nil : ∀ (left : ℕ) {cls : ℕ} {S : Shape},
    (∀ c, S.freed c = []) → S.reclaimFrom cls left = S := by
  intro left
  induction left with
  | zero => exact fun _ => rfl
  | succ left ih =>
    intro cls S hS
    have hclear : S.reclaimClass cls = S := by
      have : update S.freed cls [] = S.freed := by
        rw [← hS cls, update_eq_self]
      simp only [Shape.reclaimClass, Shape.clearFreed, this, hS cls, Shape.releaseAll, foldl_nil]
    rw [show S.reclaimFrom cls (left + 1) = (S.reclaimClass cls).reclaimFrom (cls + 1) left from rfl,
      hclear]
    exact ih hS

/-- With nothing on the freed lists `reclaim` does nothing. -/
theorem Shape.reclaimed_of_freed_nil {S : Shape} (hS : ∀ c, S.freed c = []) : S.reclaimed = S :=
  Shape.reclaimFrom_of_freed_nil 20 hS

/-! ### The refinement -/

section Refines

variable {build : Build} {w w' : World} {S : Shape} {op : Op}

theorem Holds.blank (hb : w.blocks = []) : Holds w Shape.blank := by
  refine ⟨fun b => iff_of_false (Shape.not_live_blank b) ?_, ?_, ?_, ?_⟩ <;> simp [hb]

variable {k : Block}

theorem World.bytes_eq (hI : Inv S w.heap) (hk : S.Live k.address) :
    w.bytes k = S.size k.address := by
  obtain ⟨r, h', hrun, rfl, rfl⟩ := (blockBytes_spec hI hk (E := fun _ => False)).exists_run
  unfold World.bytes
  rw [hrun]

variable {h : Heap}

/-- The live blocks may be added to what the rest of the program owns. -/
theorem Clear.of_live {K K' : Rest} (hI : Inv S h) (hK : Clear S h K) (hf : K'.foreign ⊆ K.foreign)
    (hh : ∀ a ∈ K'.held, ∃ b, S.Live b ∧ S.InBlock b a) :
    Clear S h K' where
  foreign a ha := hK.foreign a (hf ha)
  held := hh
  bound a ha := by
    rcases ha with h | h
    · exact hK.bound a (Or.inl (hf h))
    · obtain ⟨b, hb, hin⟩ := hh a h
      have h₁ := hI.wf.live_known hb
      have h₂ := Nat.mul_le_mul_right PAGE hI.known_pages
      have h₃ := hin.2
      omega

/-- What `step_refines` says of the contents of blocks: those the program still holds are as they
were. -/
def Untouched (S : Shape) (w w' : World) : Prop :=
  ∀ k ∈ w.blocks, k ∈ w'.blocks → ∀ a, S.InBlock k.address a → w'.heap.mem a = w.heap.mem a

theorem Stands.handed {size b known : ℕ} (hwf : S.WF known) (hB : Holds w S)
    (hg : Gives S (w.rest S) w.heap size b h) : ∃ S', S.Allots size b S' ∧
      Stands ⟨h, ⟨b, size⟩ :: w.blocks, w.foreign⟩ S' ∧
      Untouched S w ⟨h, ⟨b, size⟩ :: w.blocks, w.foreign⟩ := by
  obtain ⟨bytes, S', hle, hcls, hS', hI', hK', hext, -⟩ := hg
  obtain ⟨hlive, hnew, hsz, hold⟩ := hS'.facts hwf
  have hheld : ∀ k ∈ w.blocks, S.Live k.address := fun k hk => (hB.live _).mpr ⟨k, hk, rfl⟩
  refine ⟨S', ⟨bytes, hle, hcls, hS'⟩, .ready hI' (hK'.of_live hI' (fun _ h => h) ?_) ⟨fun x => ?_, ?_, ?_, ?_⟩, ?_⟩
  · rintro a ⟨k, hk, hin⟩
    refine ⟨k.address, (hlive _).mpr ?_, hin⟩
    rcases mem_cons.mp hk with rfl | hk
    · exact Or.inr rfl
    · exact Or.inl (hheld k hk)
  · rw [hlive, hB.live]
    simp [or_comm, eq_comm]
  · refine nodup_cons.mpr ⟨fun hmem => ?_, hB.nodup⟩
    obtain ⟨k, hk, hkb⟩ := mem_map.mp hmem
    have hold := hheld k hk
    rw [hkb] at hold
    exact hnew hold
  · intro k hk
    rcases mem_cons.mp hk with rfl | hk
    · exact hsz ▸ hle
    · rw [hold _ (hheld k hk)]
      exact hB.size k hk
  · intro k hk hsmall
    rcases mem_cons.mp hk with rfl | hk
    · exact hsz.trans (hcls hsmall)
    · rw [hold _ (hheld k hk)]
      exact hB.cls k hk hsmall
  · exact fun k hk _ a hin => hext.kept a (Or.inr ⟨k, hk, hin⟩)

theorem Stands.without (hI : Inv S h) (hK : Clear S h (w.rest S)) (hB : Holds w S)
    (hk : k ∈ w.blocks) :
    Clear S h ((⟨h, w.blocks.erase k, w.foreign⟩ : World).rest S) ∧
      ∀ a, S.InBlock k.address a → a ∉ (⟨h, w.blocks.erase k, w.foreign⟩ : World).rest S := by
  have hnd : w.blocks.Nodup := List.Nodup.of_map _ hB.nodup
  have hlive := (hB.live _).mpr ⟨k, hk, rfl⟩
  refine ⟨hK.mono (fun _ h => h) ?_, ?_⟩
  · rintro a ⟨k', hk', hin⟩
    exact ⟨k', mem_of_mem_erase hk', hin⟩
  · rintro a hin (ha | ⟨k', hk', hin'⟩)
    · exact (hI.wf.live_page hlive hin).1 (hK.foreign a ha).1
    · have hmem := mem_of_mem_erase hk'
      have hne : k' ≠ k := fun h => hnd.not_mem_erase (h ▸ hk')
      have hne' : k'.address ≠ k.address := fun h => hne (inj_on_of_nodup_map hB.nodup hmem hk h)
      have h₁ := hI.wf.live_disjoint ((hB.live _).mpr ⟨k', hmem, rfl⟩) hlive hne'
      have h₂ := hin.1
      have h₃ := hin.2
      have h₄ := hin'.1
      have h₅ := hin'.2
      omega

theorem bytesOf_injective {c c' : ℕ} (hc : IsClass c) (hc' : IsClass c') (h : bytesOf c = bytesOf c') :
    c = c' := by
  have key : ∀ a < 21, ∀ b < 21, IsClass a → IsClass b → bytesOf a = bytesOf b → a = b := by decide
  exact key c (Nat.lt_succ_of_le hc.2) c' (Nat.lt_succ_of_le hc'.2) hc hc' h

/-- The class that the program frees a block at is the one of the block's page. -/
theorem Holds.entry_of_class {known : ℕ} (hwf : S.WF known) (hB : Holds w S) (hk : k ∈ w.blocks)
    (hs : k.size ≤ 2048) :
    S.entry (k.address / PAGE) = .small (sizeClass k.size) := by
  have hsz := hB.cls k hk hs
  obtain ⟨hc, -⟩ := sizeClass_facts hs
  have hf := hc.facts
  rcases (hB.live _).mpr ⟨k, hk, rfl⟩ with ⟨c, he, -⟩ | ⟨n, he, -⟩
  · simp only [Shape.size, he] at hsz
    rw [he, bytesOf_injective (hwf.isClass _ _ he) hc hsz]
  · simp only [Shape.size, he] at hsz
    have := hwf.run_pos _ _ he
    unfold PAGE at hsz
    omega

/-- A freed block: `S'` has the live blocks of `S` but it, with the bytes they had. -/
theorem Stands.freed {S' : Shape} (hB : Holds w S) (hk : k ∈ w.blocks)
    (hlive : ∀ x, S'.Live x ↔ S.Live x ∧ x ≠ k.address)
    (hsize : ∀ x, S.Live x → x ≠ k.address → S'.size x = S.size x) (hI : Inv S' h)
    (hK : Clear S' h ((⟨h, w.blocks.erase k, w.foreign⟩ : World).rest S))
    (hkept : ∀ a ∈ (⟨h, w.blocks.erase k, w.foreign⟩ : World).rest S, h.mem a = w.heap.mem a) :
    Stands ⟨h, w.blocks.erase k, w.foreign⟩ S' ∧
      Untouched S w ⟨h, w.blocks.erase k, w.foreign⟩ := by
  have hnd : w.blocks.Nodup := List.Nodup.of_map _ hB.nodup
  have hother : ∀ k' ∈ w.blocks.erase k, k' ∈ w.blocks ∧ S.Live k'.address ∧
      k'.address ≠ k.address := by
    intro k' hk'
    have hmem := mem_of_mem_erase hk'
    refine ⟨hmem, (hB.live _).mpr ⟨k', hmem, rfl⟩, fun h => ?_⟩
    have := inj_on_of_nodup_map hB.nodup hmem hk h
    exact hnd.not_mem_erase (this ▸ hk')
  have hsz : ∀ k' ∈ w.blocks.erase k, S'.size k'.address = S.size k'.address := fun k' hk' =>
    hsize _ (hother k' hk').2.1 (hother k' hk').2.2
  refine ⟨.ready hI (hK.mono (fun _ h => h) ?_) ⟨fun x => ?_, ?_, ?_, ?_⟩, ?_⟩
  · rintro a ⟨k', hk', hin⟩
    refine ⟨k', hk', hin.1, ?_⟩
    rw [← hsz k' hk']
    exact hin.2
  · rw [hlive, hB.live]
    constructor
    · rintro ⟨⟨k', hk', rfl⟩, hne⟩
      exact ⟨k', (mem_erase_of_ne fun h => hne (by rw [h])).mpr hk', rfl⟩
    · rintro ⟨k', hk', rfl⟩
      exact ⟨⟨k', (hother k' hk').1, rfl⟩, (hother k' hk').2.2⟩
  · exact hB.nodup.sublist (erase_sublist.map Block.address)
  · intro k' hk'
    rw [hsz k' hk']
    exact hB.size k' (hother k' hk').1
  · intro k' hk' hs
    rw [hsz k' hk']
    exact hB.cls k' (hother k' hk').1 hs
  · exact fun k' _ hk' a hin => hkept a (Or.inr ⟨k', hk', hin⟩)

/-- A world with other pages or bytes in it, that stands for the shape it did. -/
theorem Holds.of_blocks (hB : Holds w S) (hb : w'.blocks = w.blocks) : Holds w' S := by
  obtain ⟨h₁, h₂, h₃, h₄⟩ := hB
  constructor <;> rw [hb] <;> assumption

theorem grow_run {h' : Heap} {count first : ℕ} (hrun : (grow count).run h = .ok (some first, h')) :
    h.pages + count ≤ h.limit ∧ first = h.pages ∧ h' = h.grown count := by
  have hg : Ensures (fun _ => True) (grow count)
      (fun r s => r = none ∨ h.pages + count ≤ h.limit ∧ r = some h.pages ∧ s = h.grown count)
      h := by
    unfold grow
    rw [bind_iff, get_iff, ite_iff]
    refine ⟨fun hle => ?_, fun _ => pure_iff.mpr (Or.inl rfl)⟩
    rw [bind_iff, set_iff, pure_iff]
    exact Or.inr ⟨hle, rfl, rfl⟩
  rcases hg.of_run hrun with h | ⟨hle, h, rfl⟩
  · cases h
  · exact ⟨hle, by injection h, rfl⟩

/-- A foreign address after a growth is in the new pages or was foreign before. -/
theorem World.foreign_cons {first count a : ℕ}
    (ha : (⟨h, w.blocks, (first, count) :: w.foreign⟩ : World).Foreign a) :
    (first ≤ a / PAGE ∧ a < (first + count) * PAGE) ∨ w.Foreign a := by
  obtain ⟨r, hr, h₁, h₂⟩ := ha
  rcases mem_cons.mp hr with rfl | hr
  · refine Or.inl ⟨h₁, ?_⟩
    dsimp only at h₂
    unfold PAGE at *
    omega
  · exact Or.inr ⟨r, hr, h₁, h₂⟩

/-- **The allocator refines the abstract system**: a step from a world that stands for a shape is
one of the shape's and gives a world that stands for the new shape. The blocks the program holds
before and after keep their contents, but for its own writes. -/
theorem step_refines (hw : Stands w S) (hstep : Step build w op w') (hfits : op.Fits build) :
    ∃ S', S.Step op S' ∧ Stands w' S' ∧ ((∀ a v, op ≠ .write a v) → Untouched S w w') := by
  have hO : ∀ {size}, MayOverflow (fun _ => True) build size := fun _ _ => trivial
  cases hstep with
  | alloc hsize hrun =>
    rename_i size b h
    cases hw with
    | fresh hF hb hK =>
      have hg := (alloc_first (E := fun _ => True) (K := w.rest Shape.blank) trivial hF
        (fun _ => trivial) hO (fun a ha => ha.elim (hK a) (by simp [World.rest, hb]))
        (by simp [World.rest, hb]) hfits).of_run hrun
      obtain ⟨S', hS', hst, hun⟩ := Stands.handed (Shape.blank_wf 0) (Holds.blank hb) hg
      exact ⟨S', .alloc hS', hst, fun _ => hun⟩
    | ready hI hK hB =>
      have hg := (alloc_spec (E := fun _ => True) (fun _ => trivial) hO hI hK hfits).of_run hrun
      obtain ⟨S', hS', hst, hun⟩ := Stands.handed hI.wf hB hg
      exact ⟨S', .alloc hS', hst, fun _ => hun⟩
  | allocClass hsize hcls hrun =>
    rename_i size cls b h
    cases hw with
    | fresh hF hb hK =>
      have hg := (allocClass_first (E := fun _ => True) (K := w.rest Shape.blank) trivial hF
        (fun _ => trivial) hO (fun a ha => ha.elim (hK a) (by simp [World.rest, hb]))
        (by simp [World.rest, hb]) hcls hfits).of_run hrun
      obtain ⟨S', hS', hst, hun⟩ := Stands.handed (Shape.blank_wf 0) (Holds.blank hb) hg
      exact ⟨S', .allocClass hS', hst, fun _ => hun⟩
    | ready hI hK hB =>
      have hg := (allocClass_spec (E := fun _ => True) trivial hO hI hK hcls hfits).of_run hrun
      obtain ⟨S', hS', hst, hun⟩ := Stands.handed hI.wf hB hg
      exact ⟨S', .allocClass hS', hst, fun _ => hun⟩
  | freeBlock hk hrun =>
    rename_i k h
    cases hw with
    | fresh hF hb hK => simp [hb] at hk
    | ready hI hK hB =>
      have hlive := (hB.live _).mpr ⟨k, hk, rfl⟩
      obtain ⟨hK', hbK⟩ := Stands.without hI hK hB hk
      obtain ⟨hI', hf⟩ := (freeBlock_spec (E := fun _ => True) hI hK' hlive hbK).of_run hrun
      have hwf := hI.wf
      obtain ⟨hst, hun⟩ := Stands.freed hB hk (hwf.live_release hlive)
        (fun x hx hne => hwf.release_size hlive hx hne) hI'
        ((hK'.release hI.toLayout hlive hbK).of_sameVars hf.vars) hf.kept
      exact ⟨_, .freeBlock hlive, hst, fun _ => hun⟩
  | freeClass hk hcls hrun =>
    rename_i k cls h
    cases hw with
    | fresh hF hb hK => simp [hb] at hk
    | ready hI hK hB =>
      have hlive := (hB.live _).mpr ⟨k, hk, rfl⟩
      obtain ⟨hK', hbK⟩ := Stands.without hI hK hB hk
      have hwf := hI.wf
      rcases hcls with rfl | ⟨hs, rfl⟩
      · have hrun' : (freeBlock k.address).run w.heap = .ok ((), h) := hrun
        obtain ⟨hI', hf⟩ := (freeBlock_spec (E := fun _ => True) hI hK' hlive hbK).of_run hrun'
        obtain ⟨hst, hun⟩ := Stands.freed hB hk (hwf.live_release hlive)
          (fun x hx hne => hwf.release_size hlive hx hne) hI'
          ((hK'.release hI.toLayout hlive hbK).of_sameVars hf.vars) hf.kept
        exact ⟨_, .freeRun hlive, hst, fun _ => hun⟩
      · have he := hB.entry_of_class hwf hk hs
        obtain ⟨hc, -⟩ := sizeClass_facts hs
        obtain ⟨hI', hf⟩ := (freeClass_spec (E := fun _ => True) hI hK' hlive hbK hc he).of_run hrun
        obtain ⟨hst, hun⟩ := Stands.freed hB hk (Shape.live_park hlive he)
          (fun _ _ _ => rfl) hI' ((hK'.park hlive he hbK).of_sameVars hf.vars) hf.kept
        exact ⟨_, .freeClass hlive hc he, hst, fun _ => hun⟩
  | reclaim hrun =>
    rename_i h
    cases hw with
    | fresh hF hb hK =>
      have hv := (Plain.reclaim w.heap).of_run hrun
      refine ⟨_, .reclaim, ?_, fun _ k hk => by simp [hb] at hk⟩
      rw [Shape.reclaimed_of_freed_nil fun _ => rfl]
      refine .fresh (hF.of_sameVars hv) hb fun a ha => ?_
      rw [show (⟨h, w.blocks, w.foreign⟩ : World).heap.pages = w.heap.pages from hv.pages]
      exact hK a ha
    | ready hI hK hB =>
      obtain ⟨hI', hK', hf⟩ := (reclaim_spec (E := fun _ => True) hI hK).of_run hrun
      obtain ⟨-, hkeeps, -⟩ := hI.wf.reclaimed
      have hheld : ∀ k ∈ w.blocks, S.Live k.address := fun k hk => (hB.live _).mpr ⟨k, hk, rfl⟩
      refine ⟨_, .reclaim, .ready hI' (hK'.mono (fun _ h => h) ?_) ⟨fun x => ?_, hB.nodup, ?_, ?_⟩,
        fun _ k hk _ a hin => hf.kept a (Or.inr ⟨k, hk, hin⟩)⟩
      · rintro a ⟨k, hk, hin⟩
        refine ⟨k, hk, hin.1, ?_⟩
        rw [← hkeeps.size _ (hheld k hk)]
        exact hin.2
      · rw [hkeeps.live, hB.live]
      · intro k hk
        rw [hkeeps.size _ (hheld k hk)]
        exact hB.size k hk
      · intro k hk hs
        rw [hkeeps.size _ (hheld k hk)]
        exact hB.cls k hk hs
  | grow hrun =>
    rename_i count first h
    obtain ⟨hlim, rfl, rfl⟩ := grow_run hrun
    cases hw with
    | fresh hF hb hK =>
      refine ⟨_, .grow, .fresh ⟨hF.table, hF.known, Nat.add_pos_left hF.pages_pos _, hlim,
        hF.limit_le⟩ hb ?_, fun _ k hk => by simp [hb] at hk⟩
      intro a ha
      rcases World.foreign_cons ha with ⟨-, hlt⟩ | ha
      · exact hlt
      · exact Nat.lt_of_lt_of_le (hK a ha) (Nat.mul_le_mul_right _ (Nat.le_add_right _ _))
    | ready hI hK hB =>
      have hL := hI.toLayout
      refine ⟨_, .grow, .ready (hI.grown hlim) ⟨?_, hK.held, ?_⟩ (hB.of_blocks rfl),
        fun _ k hk _ a hin => hK.grown_kept count a (Or.inr ⟨k, hk, hin⟩)⟩
      · intro a ha
        rcases World.foreign_cons ha with ⟨hge, -⟩ | ha
        · have hp := hL.known_pages
          have htab := hL.table_pages
          refine ⟨hL.wf.beyond _ (by omega), fun hin => ?_⟩
          have h₁ : a < w.heap.table + LISTS + 4 * w.heap.capacity := hin.2
          unfold PAGE at *
          omega
        · exact (hK.grown count).foreign a ha
      · rintro a (ha | ha)
        · rcases World.foreign_cons ha with ⟨-, hlt⟩ | ha
          · exact hlt
          · exact (hK.grown count).bound a (Or.inl ha)
        · exact (hK.grown count).bound a (Or.inr ha)
  | write ha =>
    rename_i a v
    cases hw with
    | fresh hF hb hK =>
      exact ⟨_, .write, .fresh ⟨hF.table, hF.known, hF.pages_pos, hF.pages_limit, hF.limit_le⟩ hb hK,
        fun _ k hk => by simp [hb] at hk⟩
    | ready hI hK hB =>
      have hmem : a ∈ w.rest S := by
        rcases ha with ha | ⟨k, hk, hin⟩
        · exact Or.inl ha
        · refine Or.inr ⟨k, hk, hin.1, ?_⟩
          rw [← World.bytes_eq hI ((hB.live _).mpr ⟨k, hk, rfl⟩)]
          exact hin.2
      have hv : SameVars w.heap { w.heap with mem := update w.heap.mem a v } :=
        ⟨rfl, rfl, rfl, rfl, rfl⟩
      refine ⟨_, .write, .ready ⟨hI.toLayout.of_sameVars hv, ?_⟩ (hK.of_sameVars hv)
        (hB.of_blocks rfl), fun h => absurd rfl (h a v)⟩
      refine hI.rep.congr hI.wf hI.known_le hK (fun _ _ hp => Or.inl hp) fun c hc _ => ?_
      -- the byte is in no cell of the allocator's
      refine Heap.view_congr rfl fun x hx hx' => update_of_ne ?_ _ _
      rintro rfl
      exact hc.clear hI.toLayout hK hx hx' hmem

end Refines

end Alloc

end HdLang
