import HdLang.Lib.Text
import Mathlib.Data.List.Flatten
import Mathlib.Data.Prod.Lex
import Mathlib.Tactic.Ring

/-!
# Applying fix-its

`fix` checks the texts of a package, applies the fix-its that the check offers and checks again, in
rounds. A round tries its offers together; when that adds a diagnostic, it tries each on top of
those kept before it. Positions are relative to the texts before the round, so the edits of a round
apply from the end of each file backwards.

The check is any function of the texts. What one round does is `Step`: the texts after it are those
before with the edits of the kept changes substituted at once (`Patched`), and the check after it
has no diagnostic the check before lacked. `fix` is a chain of such rounds (`fix_safe`).
-/

namespace HdLang.Fix

open Text Function List Option Bool

/-! ### Diagnostics and fix-its -/

/-- One edit of a fix-it: bytes `start..stop` of `file` become `text`. -/
structure Edit where
  file : String
  start : ℕ
  stop : ℕ
  text : List Char
  deriving DecidableEq

/-- One fix-it. -/
structure FixIt where
  message : String
  edits : List Edit
  isExact : Bool
  deriving DecidableEq

/-- The codes of diagnostics, with the two that fixing asks for. -/
structure Codes (Code : Type) where
  asStr : Code → String
  redundantLetMut : Code
  missingCapability : Code

/-- A diagnostic: what fixing reads of it. -/
structure Diag (Code : Type) where
  code : Option Code
  isError : Bool
  message : String
  file : Option String
  fixes : List FixIt

/-- The texts of the package's source files, by path. -/
abbrev Texts := String → Option (List Char)

/-- What tells one diagnostic from another across an edit: its code, whether it is an error, its
file and its message. -/
abbrev Key := Option String × Bool × Option String × String

/-- One fix-it to apply. -/
structure Change where
  /-- The file of its first edit, with that edit's line and column. -/
  file : String
  line : ℕ
  column : ℕ
  /-- Its diagnostic. -/
  diag : Key
  /-- What the fix-it does. -/
  message : String
  edits : List Edit
  deriving DecidableEq

/-- What is fixed: a check or a lint. -/
inductive Mode where
  | check
  | lint

/-- What the rounds did: the final texts, each change in order, and the diagnostics of the last
check. -/
structure Outcome (Code : Type) where
  texts : Texts
  changes : List Change
  remaining : List (Diag Code)

section Model

variable {Code : Type} [DecidableEq Code] (codes : Codes Code)

/-- The most rounds of check and apply that one run makes. -/
def ROUNDS : ℕ := 3

def key (d : Diag Code) : Key := (d.code.map codes.asStr, d.isError, d.file, d.message)

/-- Lint fixes only what is proven to keep behaviour. -/
def Mode.accepts (mode : Mode) (code : Option Code) : Bool :=
  match mode with
  | .check => true
  | .lint => code = some codes.redundantLetMut

/-- The line and column of a byte. -/
def lineColumn (text : List Char) (at_ : ℕ) : ℕ × ℕ :=
  let before := match cut text at_ with
    | some (before, _) => before
    | none => text
  (before.count '\n' + 1, (before.reverse.takeWhile (· ≠ '\n')).length + 1)

/-- Whether an edit's byte range lies in a text, on character boundaries. -/
def fits (text : List Char) (e : Edit) : Bool :=
  e.start ≤ e.stop && e.stop ≤ byteLen text && isCharBoundary text e.start &&
    isCharBoundary text e.stop

/-- Whether two edits overlap: they share a byte, or they start at the same byte. -/
def overlap (a b : Edit) : Bool :=
  a.file = b.file && ((a.start < b.stop && b.start < a.stop) || a.start = b.start)

/-- The order in which edits apply: from the end of each file backwards. -/
def Edit.position (e : Edit) : String ×ₗ ℕ ×ₗ ℕ := toLex (e.file, toLex (e.start, e.stop))

/-- `text.replace_range(start..stop, new)`; `none` is its panic. -/
def replaceRange (text : List Char) (e : Edit) : Option (List Char) := do
  let (front, _) ← cut text e.start
  let (_, back) ← cut text e.stop
  if e.start ≤ e.stop then some (front ++ e.text ++ back) else none

/-- One edit of the texts. -/
def applyEdit (out : Texts) (e : Edit) : Option Texts :=
  match out e.file with
  | some text => (replaceRange text e).map fun text => Function.update out e.file (some text)
  | none => some out

/-- The texts with the edits of changes applied. -/
def apply (texts : Texts) (changes : List Change) : Option Texts :=
  ((changes.flatMap Change.edits).mergeSort fun a b => b.position ≤ a.position).foldlM applyEdit
  texts

/-- The fix-it a diagnostic offers: its first exact one not rejected before. -/
def offer (rejected : List (Key × String)) (d : Diag Code) : Option FixIt :=
  d.fixes.find? fun f => f.isExact && !rejected.contains (key codes d, f.message)

/-- The changes offered for diagnostics, behind the ones taken before. `none` is the panic of a text
that is not there. -/
def planFrom (texts : Texts) (rejected : List (Key × String)) (mode : Mode) (taken : List Change) :
    List (Diag Code) → Option (List Change)
  | [] => some taken
  | d :: diags =>
    if !mode.accepts codes d.code then planFrom texts rejected mode taken diags
    else match offer codes rejected d with
      | none => planFrom texts rejected mode taken diags
      | some f =>
        -- Other manifest edits remain suggestions.
        if f.edits.any (fun e => e.file = "hd.toml") && d.code ≠ some codes.missingCapability then
          planFrom texts rejected mode taken diags
        else match f.edits with
          | [] => planFrom texts rejected mode taken diags
          | first :: _ =>
            if !f.edits.all (fun e => (texts e.file).any fun t => fits t e) then
              planFrom texts rejected mode taken diags
            else if (taken.flatMap Change.edits).any fun a => f.edits.any fun b => overlap a b then
              planFrom texts rejected mode taken diags
            else match texts first.file with
              | none => none
              | some text =>
                let (line, column) := lineColumn text first.start
                planFrom texts rejected mode
                  (taken ++ [⟨first.file, line, column, key codes d, f.message, f.edits⟩]) diags

/-- The fix-its a check offers to apply, in output order. -/
def plan (diags : List (Diag Code)) (texts : Texts) (rejected : List (Key × String)) (mode : Mode) :
    Option (List Change) :=
  planFrom codes texts rejected mode [] diags

/-- The counts of keys, with a diagnostic's key counted on. -/
def tally (step : ℤ) (counts : Key → ℤ) (d : Diag Code) : Key → ℤ :=
  Function.update counts (key codes d) (counts (key codes d) + step)

/-- Whether `after` has no diagnostic that `before` lacks. -/
def addsNone (before after : List (Diag Code)) : Bool :=
  let counts := after.foldl (tally codes (-1)) (before.foldl (tally codes 1) fun _ => 0)
  (before ++ after).all fun d => 0 ≤ counts (key codes d)

/-- What a round keeps, the check after it, and the fix-its rejected so far. -/
structure Kept (Code : Type) where
  kept : List Change
  current : List (Diag Code)
  rejected : List (Key × String)

variable (check : Texts → List (Diag Code))

/-- Each offer in turn, on top of the ones kept before it. -/
def tryEach (texts : Texts) (k : Kept Code) : List Change → Option (Kept Code)
  | [] => some k
  | c :: offered => do
    let out ← apply texts (k.kept ++ [c])
    let after := check out
    if addsNone codes k.current after then
      tryEach texts { k with kept := k.kept ++ [c], current := after } offered
    else tryEach texts { k with rejected := (c.diag, c.message) :: k.rejected } offered

/-- One round: the offers that are safe, and the check of the texts with them applied. -/
def round (texts : Texts) (before : List (Diag Code)) (offered : List Change)
    (rejected : List (Key × String)) : Option (Kept Code) := do
  let out ← apply texts offered
  let all := check out
  if addsNone codes before all then some ⟨offered, all, rejected⟩
  else match offered with
    | [only] => some ⟨[], before, (only.diag, only.message) :: rejected⟩
    | _ => tryEach codes check texts ⟨[], before, rejected⟩ offered

/-- At most so many rounds, from texts and their check. -/
def rounds (mode : Mode) : ℕ → Outcome Code → List (Key × String) → Option (Outcome Code)
  | 0, o, _ => some o
  | n + 1, o, rejected => do
    let offered ← plan codes o.remaining o.texts rejected mode
    if offered.isEmpty then some o
    else do
      let k ← round codes check o.texts o.remaining offered rejected
      if k.kept.isEmpty then rounds mode n o k.rejected
      else do
        let texts ← apply o.texts k.kept
        rounds mode n ⟨texts, o.changes ++ k.kept, k.current⟩ k.rejected

/-- The rounds from `texts`. -/
def fix (texts : Texts) (mode : Mode) : Option (Outcome Code) :=
  rounds codes check mode ROUNDS ⟨texts, [], check texts⟩ []

end Model

/-! ### Substituting edits -/

/-- `out` is the text with edits substituted at once, the last edit first: each replaces the bytes
between its positions in the text. -/
inductive Patched : List Char → List Edit → List Char → Prop
  | none (text : List Char) : Patched text [] text
  | last {front old back out : List Char} {es : List Edit} {e : Edit} :
      Patched front es out → byteLen front = e.start → byteLen (front ++ old) = e.stop →
      Patched (front ++ old ++ back) (e :: es) (out ++ e.text ++ back)

/-- The texts with each file's edits substituted at once. -/
def Substituted (texts : Texts) (edits : List Edit) (out : Texts) : Prop :=
  ∀ file, match texts file with
    | none => out file = none
    | some text => ∃ es result, es.Perm (edits.filter (·.file = file)) ∧ Patched text es result ∧
        out file = some result

section Edits

variable {front old back : List Char} {e : Edit}

theorem fits_append (hstart : byteLen front = e.start) (hstop : byteLen (front ++ old) = e.stop) :
    fits (front ++ old ++ back) e = true := by
  have hcut : cut (front ++ old ++ back) e.start = some (front, old ++ back) := by
    rw [append_assoc, ← hstart, cut_append]
  have hcut' : cut (front ++ old ++ back) e.stop = some (front ++ old, back) := by
    rw [← hstop, cut_append]
  simp only [fits, isCharBoundary, hcut, hcut', isSome_some, Bool.and_true, and_eq_true,
    decide_eq_true_eq]
  rw [byteLen_append] at hstop
  rw [byteLen_append, byteLen_append]
  omega

/-- A range that fits is between a front and a back of the text. -/
theorem of_fits {text : List Char} (h : fits text e = true) :
    ∃ front old back, text = front ++ old ++ back ∧ byteLen front = e.start ∧
      byteLen (front ++ old) = e.stop := by
  simp only [fits, and_eq_true, decide_eq_true_eq] at h
  obtain ⟨⟨⟨hle, -⟩, hstart⟩, hstop⟩ := h
  obtain ⟨⟨front, rest⟩, hcut⟩ := isSome_iff_exists.mp hstart
  obtain ⟨⟨front', back⟩, hcut'⟩ := isSome_iff_exists.mp hstop
  obtain ⟨rfl, hfront⟩ := of_cut hcut
  obtain ⟨htext, hfront'⟩ := of_cut hcut'
  obtain ⟨old, rfl, rfl⟩ := front_of_le htext (by omega)
  exact ⟨front, old, back, by simp, hfront, hfront'⟩

theorem replaceRange_eq (hstart : byteLen front = e.start)
    (hstop : byteLen (front ++ old) = e.stop) :
    replaceRange (front ++ old ++ back) e = some (front ++ e.text ++ back) := by
  have hcut : cut (front ++ old ++ back) e.start = some (front, old ++ back) := by
    rw [append_assoc, ← hstart, cut_append]
  have hcut' : cut (front ++ old ++ back) e.stop = some (front ++ old, back) := by
    rw [← hstop, cut_append]
  rw [byteLen_append] at hstop
  rw [replaceRange, hcut, hcut']
  exact if_pos (by omega)

/-- A range that ends in a front of the text fits the front. -/
theorem fits_front {text rest : List Char} (h : fits (text ++ rest) e = true)
    (hle : e.stop ≤ byteLen text) : fits text e = true := by
  obtain ⟨front, old, back, htext, hstart, hstop⟩ := of_fits h
  obtain ⟨middle, rfl, -⟩ := front_of_le htext.symm (by omega)
  exact fits_append hstart hstop

/-- **Edits from the last to the first** are substituted at once: none moves the bytes before it. -/
theorem foldlM_replaceRange (es : List Edit) (text rest : List Char)
    (hfits : ∀ e ∈ es, fits text e = true) (hchain : es.Pairwise fun a b => b.stop ≤ a.start) :
    ∃ out, es.foldlM replaceRange (text ++ rest) = some (out ++ rest) ∧ Patched text es out := by
  induction es generalizing text rest with
  | nil => exact ⟨text, rfl, .none text⟩
  | cons e es ih =>
    obtain ⟨hlast, hchain⟩ := pairwise_cons.mp hchain
    have hrest : ∀ e' ∈ es, fits text e' = true := fun e' he' =>
      hfits e' (mem_cons_of_mem _ he')
    obtain ⟨front, old, back, rfl, hstart, hstop⟩ := of_fits (hfits e mem_cons_self)
    have hfront : ∀ e' ∈ es, fits front e' = true := by
      intro e' he'
      have hfit := hrest e' he'
      rw [append_assoc] at hfit
      exact fits_front hfit (hstart ▸ hlast e' he')
    obtain ⟨out, hfold, hpatched⟩ := ih front (e.text ++ (back ++ rest)) hfront hchain
    refine ⟨out ++ e.text ++ back, ?_, .last hpatched hstart hstop⟩
    have hassoc : front ++ old ++ back ++ rest = front ++ old ++ (back ++ rest) := by simp
    rw [foldlM_cons, hassoc, replaceRange_eq hstart hstop]
    calc es.foldlM replaceRange (front ++ e.text ++ (back ++ rest))
        = es.foldlM replaceRange (front ++ (e.text ++ (back ++ rest))) := by
          rw [append_assoc]
      _ = some (out ++ (e.text ++ (back ++ rest))) := hfold
      _ = some (out ++ e.text ++ back ++ rest) := by simp

/-- The edits of each file apply to its text alone. -/
theorem foldlM_applyEdit (es : List Edit) (texts : Texts)
    (h : ∀ file text, texts file = some text →
      ∃ result, (es.filter (·.file = file)).foldlM replaceRange text = some result) :
    ∃ out, es.foldlM applyEdit texts = some out ∧ ∀ file, out file =
      (texts file).bind fun text => (es.filter (·.file = file)).foldlM replaceRange text := by
  induction es generalizing texts with
  | nil =>
    refine ⟨texts, rfl, fun file => ?_⟩
    cases texts file <;> rfl
  | cons e es ih =>
    have hother : ∀ file, file ≠ e.file →
        (e :: es).filter (·.file = file) = es.filter (·.file = file) := fun file hne =>
      filter_cons_of_neg (by simpa using hne.symm)
    have hsame : (e :: es).filter (·.file = e.file) = e :: es.filter (·.file = e.file) :=
      filter_cons_of_pos (by simp)
    cases hfile : texts e.file with
    | none =>
      have hstep : applyEdit texts e = some texts := by rw [applyEdit, hfile]
      have hne : ∀ {file}, texts file ≠ none → file ≠ e.file := by
        rintro file hsome rfl
        exact hsome hfile
      obtain ⟨out, hfold, hout⟩ := ih texts fun file text ht => by
        rw [← hother file (hne (by rw [ht]; simp))]
        exact h file text ht
      refine ⟨out, by rw [foldlM_cons, hstep]; exact hfold, fun file => ?_⟩
      rw [hout file]
      by_cases hsome : texts file = none
      · rw [hsome]
        rfl
      · rw [hother file (hne hsome)]
    | some text =>
      obtain ⟨result, hresult⟩ := h e.file text hfile
      rw [hsame, foldlM_cons] at hresult
      obtain ⟨text', htext', hresult⟩ := bind_eq_some_iff.mp hresult
      have hstep : applyEdit texts e = some (Function.update texts e.file (some text')) := by
        rw [applyEdit, hfile]
        show (replaceRange text e).map _ = _
        rw [htext', map_some]
      obtain ⟨out, hfold, hout⟩ := ih (Function.update texts e.file (some text')) fun file t ht =>
        by
        by_cases hf : file = e.file
        · rw [hf] at ht ⊢
          rw [update_self] at ht
          cases ht
          exact ⟨result, hresult⟩
        · rw [update_of_ne hf] at ht
          rw [← hother file hf]
          exact h file t ht
      refine ⟨out, by rw [foldlM_cons, hstep]; exact hfold, fun file => ?_⟩
      rw [hout file]
      by_cases hf : file = e.file
      · rw [hf, update_self, hfile, bind_some, bind_some, hsame, foldlM_cons, htext']
        rfl
      · rw [update_of_ne hf, hother file hf]

end Edits

section Order

variable {edits : List Edit}

/-- The edits in the order they apply. -/
def inOrder (edits : List Edit) : List Edit :=
  edits.mergeSort fun a b => b.position ≤ a.position

/-- No two edits of a list overlap. -/
def Apart (edits : List Edit) : Prop := edits.Pairwise fun a b => overlap a b = false

theorem inOrder_perm (edits : List Edit) : (inOrder edits).Perm edits := mergeSort_perm _ _

theorem overlap_comm (a b : Edit) : overlap a b = overlap b a := by
  rw [Bool.eq_iff_iff]
  simp only [overlap, and_eq_true, or_eq_true, decide_eq_true_eq]
  constructor
  · rintro ⟨hfile, hshare | hstart⟩
    · exact ⟨hfile.symm, .inl ⟨hshare.2, hshare.1⟩⟩
    · exact ⟨hfile.symm, .inr hstart.symm⟩
  · rintro ⟨hfile, hshare | hstart⟩
    · exact ⟨hfile.symm, .inl ⟨hshare.2, hshare.1⟩⟩
    · exact ⟨hfile.symm, .inr hstart.symm⟩

theorem Apart.perm {es : List Edit} (h : Apart edits) (hperm : es.Perm edits) : Apart es :=
  (hperm.pairwise_iff fun {a b} hab => by rw [overlap_comm, hab]).mpr h

/-- Edits that do not overlap apply in a strict order, each before the start of the one before it.
-/
theorem inOrder_chain (h : Apart edits) (hle : ∀ e ∈ edits, e.start ≤ e.stop) :
    (inOrder edits).Pairwise fun a b =>
      b.position < a.position ∧ (a.file = b.file → b.stop ≤ a.start) := by
  have hsorted : (inOrder edits).Pairwise fun a b => decide (b.position ≤ a.position) = true :=
    pairwise_mergeSort (fun a b c hab hbc => by
      simp only [decide_eq_true_eq] at *
      exact hbc.trans hab) (fun a b => by
      simp only [or_eq_true, decide_eq_true_eq]
      exact le_total _ _) edits
  refine (hsorted.and (h.perm (inOrder_perm edits))).imp_of_mem ?_
  rintro a b ha hb ⟨hab, hno⟩
  have hpos : b.position ≤ a.position := of_decide_eq_true hab
  have hstop := hle a ((inOrder_perm edits).mem_iff.mp ha)
  have hapart : a.file = b.file → ¬(a.start < b.stop ∧ b.start < a.stop) ∧ a.start ≠ b.start := by
    intro hfile
    simp [overlap, hfile] at hno
    exact ⟨by omega, hno.2⟩
  have hlt : b.position < a.position := by
    refine lt_of_le_of_ne hpos fun heq => ?_
    have hfile : b.file = a.file := congrArg (fun p => (ofLex p).1) heq
    have hstart : b.start = a.start := congrArg (fun p => (ofLex (ofLex p).2).1) heq
    exact (hapart hfile.symm).2 hstart.symm
  refine ⟨hlt, fun hfile => ?_⟩
  obtain ⟨hno, hne⟩ := hapart hfile
  have hstart : b.start ≤ a.start := by
    obtain hlow | ⟨-, hrest⟩ := Prod.Lex.toLex_le_toLex.mp hpos
    · exact absurd hlow (by rw [hfile]; exact lt_irrefl _)
    · obtain hlow | ⟨heq, -⟩ := Prod.Lex.toLex_le_toLex.mp hrest
      · exact Nat.le_of_lt hlow
      · exact Nat.le_of_eq heq
  omega

/-- The order in which edits apply does not depend on the order they are given in. -/
theorem inOrder_eq {es : List Edit} (h : Apart edits) (hle : ∀ e ∈ edits, e.start ≤ e.stop)
    (hperm : es.Perm edits) : inOrder es = inOrder edits := by
  have hsame : (inOrder es).Perm (inOrder edits) :=
    ((inOrder_perm es).trans hperm).trans (inOrder_perm edits).symm
  have hchain := inOrder_chain h hle
  have hchain' := inOrder_chain (h.perm hperm) fun e he => hle e (hperm.mem_iff.mp he)
  refine hsame.eq_of_pairwise (fun a b _ _ hab hba => absurd hab.1 (lt_asymm hba.1)) hchain' hchain

/-- **The edits of changes are substituted at once**, whatever the order of the changes. -/
theorem apply_spec {texts : Texts} {changes : List Change}
    (hfits : ∀ e ∈ changes.flatMap Change.edits, ∃ text, texts e.file = some text ∧ fits text e =
    true) (hapart : Apart (changes.flatMap Change.edits)) :
    ∃ out, apply texts changes = some out ∧ Substituted texts (changes.flatMap Change.edits) out ∧
      ∀ changes', changes'.Perm changes → apply texts changes' = some out := by
  have hle : ∀ e ∈ changes.flatMap Change.edits, e.start ≤ e.stop := by
    intro e he
    obtain ⟨text, -, hfit⟩ := hfits e he
    obtain ⟨front, old, back, -, hstart, hstop⟩ := of_fits hfit
    rw [byteLen_append] at hstop
    omega
  have hfile : ∀ file text, texts file = some text → ∃ result,
      ((inOrder (changes.flatMap Change.edits)).filter (·.file = file)).foldlM replaceRange text =
        some result ∧
      Patched text ((inOrder (changes.flatMap Change.edits)).filter (·.file = file)) result := by
    intro file text htext
    have hchain : ((inOrder (changes.flatMap Change.edits)).filter (·.file = file)).Pairwise
        fun a b => b.stop ≤ a.start := by
      refine ((inOrder_chain hapart hle).filter _).imp_of_mem fun {a b} ha hb hab => hab.2 ?_
      have hfa := (mem_filter.mp ha).2
      have hfb := (mem_filter.mp hb).2
      simp only [decide_eq_true_eq] at hfa hfb
      rw [hfa, hfb]
    obtain ⟨result, hfold, hpatched⟩ := foldlM_replaceRange _ text [] (fun e he => by
      obtain ⟨hmem, hef⟩ := mem_filter.mp he
      obtain ⟨text', htext', hfit⟩ := hfits e ((inOrder_perm _).mem_iff.mp hmem)
      rw [of_decide_eq_true hef, htext] at htext'
      cases htext'
      exact hfit) hchain
    rw [append_nil, append_nil] at hfold
    exact ⟨result, hfold, hpatched⟩
  obtain ⟨out, hfold, hout⟩ := foldlM_applyEdit (inOrder (changes.flatMap Change.edits)) texts
    fun file text htext => (hfile file text htext).imp fun _ h => h.1
  refine ⟨out, hfold, fun file => ?_, fun changes' hperm => ?_⟩
  · have hof := hout file
    split
    · next hnone => rw [hof, hnone, bind_none]
    · next text htext =>
      obtain ⟨result, hresult, hpatched⟩ := hfile file text htext
      rw [htext, bind_some, hresult] at hof
      exact ⟨_, result, (inOrder_perm _).filter _, hpatched, hof⟩
  · show (inOrder (changes'.flatMap Change.edits)).foldlM applyEdit texts = some out
    rw [inOrder_eq hapart hle (hperm.flatMap_right _), hfold]

end Order

/-! ### No new diagnostics -/

section Rounds

variable {Code : Type} [DecidableEq Code] {codes : Codes Code}

/-- How often a key occurs among diagnostics. -/
def occurrences (codes : Codes Code) (diags : List (Diag Code)) (k : Key) : ℕ :=
  (diags.map (key codes)).count k

omit [DecidableEq Code] in
theorem foldl_tally (step : ℤ) (diags : List (Diag Code)) (counts : Key → ℤ) (k : Key) :
    diags.foldl (tally codes step) counts k = counts k + step * occurrences codes diags k := by
  induction diags generalizing counts with
  | nil => simp [occurrences]
  | cons d diags ih =>
    rw [foldl_cons, ih, tally, occurrences, occurrences, map_cons, count_cons]
    by_cases hk : k = key codes d
    · subst hk
      rw [update_self]
      simp
      ring
    · rw [update_of_ne hk]
      simp [Ne.symm hk]

omit [DecidableEq Code] in
/-- A check adds none exactly when no key occurs more often in it. -/
theorem addsNone_iff {before after : List (Diag Code)} : addsNone codes before after = true ↔
    ∀ k, occurrences codes after k ≤ occurrences codes before k := by
  simp only [addsNone, List.all_eq_true, decide_eq_true_eq, foldl_tally]
  constructor
  · intro h k
    by_cases hk : k ∈ after.map (key codes)
    · obtain ⟨d, hd, rfl⟩ := List.mem_map.mp hk
      have := h d (mem_append_right _ hd)
      omega
    · rw [occurrences, count_eq_zero_of_not_mem hk]
      exact Nat.zero_le _
  · intro h d _
    have := h (key codes d)
    omega

/-! ### Planning -/

/-- A change comes from the first check: an accepted diagnostic with an exact fix-it of its message
and edits, at the line and column where the first edit starts. -/
def Offered (codes : Codes Code) (mode : Mode) (texts : Texts) (diags : List (Diag Code))
    (c : Change) : Prop :=
  ∃ d ∈ diags, mode.accepts codes d.code = true ∧ c.diag = key codes d ∧
    ∃ f ∈ d.fixes, f.isExact = true ∧ c.message = f.message ∧ c.edits = f.edits ∧
      ∃ first text, f.edits.head? = some first ∧ c.file = first.file ∧
        texts c.file = some text ∧ (c.line, c.column) = lineColumn text first.start

/-- Changes that can be applied together: the check offered them, their edits fit, and no two edits
overlap. -/
structure Planned (codes : Codes Code) (mode : Mode) (texts : Texts) (diags : List (Diag Code))
    (changes : List Change) : Prop where
  offered : ∀ c ∈ changes, Offered codes mode texts diags c
  fit : ∀ e ∈ changes.flatMap Change.edits, ∃ text, texts e.file = some text ∧ fits text e = true
  apart : Apart (changes.flatMap Change.edits)

variable {mode : Mode} {texts : Texts}

theorem Planned.sublist {diags : List (Diag Code)} {changes changes' : List Change}
    (h : Planned codes mode texts diags changes) (hsub : changes'.Sublist changes) :
    Planned codes mode texts diags changes' where
  offered c hc := h.offered c (hsub.subset hc)
  fit e he := h.fit e ((hsub.flatMap _).subset he)
  apart := h.apart.sublist (hsub.flatMap _)

/-- The edits of no fix-it of the check overlap each other. -/
def SelfApart (diags : List (Diag Code)) : Prop := ∀ d ∈ diags, ∀ f ∈ d.fixes, Apart f.edits

/-- Planning keeps the changes such that they can be applied together. -/
theorem planFrom_spec {all diags : List (Diag Code)} (rejected : List (Key × String))
    (hall : SelfApart all) (hsub : ∀ d ∈ diags, d ∈ all) {taken : List Change}
    (htaken : Planned codes mode texts all taken) :
    ∃ changes, planFrom codes texts rejected mode taken diags = some changes ∧
      Planned codes mode texts all changes := by
  induction diags generalizing taken with
  | nil => exact ⟨taken, rfl, htaken⟩
  | cons d diags ih =>
    have hskip := ih (fun d' hd' => hsub d' (mem_cons_of_mem _ hd')) htaken
    have hd := hsub d mem_cons_self
    rw [planFrom]
    split
    · exact hskip
    · next haccepts =>
      split
      · exact hskip
      · next f hoffer =>
        obtain ⟨hf, hexact⟩ : f ∈ d.fixes ∧ f.isExact = true := by
          refine ⟨mem_of_find?_eq_some hoffer, ?_⟩
          have := find?_some hoffer
          simp only [and_eq_true] at this
          exact this.1
        split
        · exact hskip
        · split
          · exact hskip
          · next first rest hedits =>
            split
            · exact hskip
            · next hfits =>
              split
              · exact hskip
              · next hoverlap =>
                have hfit : ∀ e ∈ f.edits, ∃ text, texts e.file = some text ∧ fits text e = true :=
                  by
                  intro e he
                  have hone := all_eq_true.mp (by simpa using hfits) e he
                  exact (Option.any_eq_true _ _).mp hone
                have hcross : ∀ a ∈ taken.flatMap Change.edits, ∀ b ∈ f.edits, overlap a b = false
                  := by
                  intro a ha b hb
                  by_contra hab
                  refine hoverlap (any_eq_true.mpr ⟨a, ha, any_eq_true.mpr ⟨b, hb, ?_⟩⟩)
                  simpa using hab
                split
                · next hnone =>
                  obtain ⟨text, htext, -⟩ := hfit first (by rw [hedits]; exact mem_cons_self)
                  rw [hnone] at htext
                  cases htext
                · next text htext =>
                  refine ih (fun d' hd' => hsub d' (mem_cons_of_mem _ hd')) ⟨?_, ?_, ?_⟩
                  · intro c hc
                    obtain hc | hc := mem_append.mp hc
                    · exact htaken.offered c hc
                    · rw [mem_singleton.mp hc]
                      exact ⟨d, hd, by simpa using haccepts, rfl, f, hf, hexact, rfl, rfl, first,
                        text,
                        by rw [hedits]; rfl, rfl, htext, rfl⟩
                  · intro e he
                    rw [flatMap_append, mem_append] at he
                    obtain he | he := he
                    · exact htaken.fit e he
                    · exact hfit e (by simpa using he)
                  · have happend : ∀ c : Change, (taken ++ [c]).flatMap Change.edits =
                        taken.flatMap Change.edits ++ c.edits := fun c => by simp
                    rw [happend]
                    exact pairwise_append.mpr ⟨htaken.apart, hall d hd f hf, hcross⟩

/-! ### Rounds -/

variable {check : Texts → List (Diag Code)}

/-- The check after the kept changes, which adds none to the one before. -/
def Settled (codes : Codes Code) (check : Texts → List (Diag Code)) (texts : Texts)
    (k : Kept Code) : Prop :=
  ∃ out, apply texts k.kept = some out ∧ k.current = check out ∧
    ∀ name, occurrences codes k.current name ≤ occurrences codes (check texts) name

theorem apply_nil (texts : Texts) : apply texts [] = some texts := by
  simp [apply]

/-- **Trying each offer** keeps a part of them, with the check of the texts with the part applied.
-/
theorem tryEach_spec {offered : List Change}
    (hplanned : Planned codes mode texts (check texts) offered) (rest : List Change) (k : Kept Code)
    (hsub : (k.kept ++ rest).Sublist offered) (hk : Settled codes check texts k) :
    ∃ k', tryEach codes check texts k rest = some k' ∧ k'.kept.Sublist offered ∧
      Settled codes check texts k' := by
  induction rest generalizing k with
  | nil => exact ⟨k, rfl, by simpa using hsub, hk⟩
  | cons c rest ih =>
    have hone : (k.kept ++ [c]).Sublist offered := by
      refine List.Sublist.trans ?_ hsub
      exact List.Sublist.append_left (by simp) _
    obtain ⟨out, hout, -, -⟩ := apply_spec (hplanned.sublist hone).fit (hplanned.sublist hone).apart
    rw [tryEach, hout]
    show ∃ k', (if addsNone codes k.current (check out) then _ else _) = some k' ∧ _
    split
    · next hadds =>
      refine ih _ (by simpa using hsub) ⟨out, hout, rfl, fun name => ?_⟩
      obtain ⟨_, -, -, hcount⟩ := hk
      exact (addsNone_iff.mp hadds name).trans (hcount name)
    · exact ih _ ((List.Sublist.append_left (sublist_cons_self c rest) _).trans hsub) hk

/-- **One round** keeps a part of what was offered. -/
theorem round_spec {offered : List Change}
    (hplanned : Planned codes mode texts (check texts) offered) (rejected : List (Key × String)) :
    ∃ k, round codes check texts (check texts) offered rejected = some k ∧
      k.kept.Sublist offered ∧ Settled codes check texts k := by
  obtain ⟨out, hout, -, -⟩ := apply_spec hplanned.fit hplanned.apart
  have hnone : ∀ rejected, Settled codes check texts ⟨[], check texts, rejected⟩ := fun _ =>
    ⟨texts, apply_nil texts, rfl, fun _ => le_rfl⟩
  rw [round.eq_def, hout]
  show ∃ k, (if addsNone codes (check texts) (check out) then _ else _) = some k ∧ _
  split
  · next hadds => exact ⟨_, rfl, List.Sublist.refl _, out, hout, rfl, addsNone_iff.mp hadds⟩
  · split
    · exact ⟨_, rfl, nil_sublist _, hnone _⟩
    · exact tryEach_spec hplanned _ _ (List.Sublist.refl _) (hnone rejected)

/-- What one round does: the check of the texts before it offered the changes it keeps, the texts
after it are those with the changes substituted at once, in whatever order they are given, and the
check after it has no diagnostic more often. -/
structure Step (codes : Codes Code) (check : Texts → List (Diag Code)) (mode : Mode)
    (before : Texts) (kept : List Change) (after : Texts) : Prop where
  offered : ∀ c ∈ kept, Offered codes mode before (check before) c
  substituted : Substituted before (kept.flatMap Change.edits) after
  order : ∀ kept', kept'.Perm kept → apply before kept' = some after
  addsNone : ∀ name, occurrences codes (check after) name ≤ occurrences codes (check before) name

/-- Rounds one after the other, with the changes they keep. -/
inductive Run (codes : Codes Code) (check : Texts → List (Diag Code)) (mode : Mode) :
    Texts → List Change → Texts → Prop
  | done (texts : Texts) : Run codes check mode texts [] texts
  | round {before between after : Texts} {kept changes : List Change} :
      Step codes check mode before kept between → Run codes check mode between changes after →
      Run codes check mode before (kept ++ changes) after

theorem Run.addsNone {before after : Texts} {changes : List Change}
    (h : Run codes check mode before changes after) (name : Key) :
    occurrences codes (check after) name ≤ occurrences codes (check before) name := by
  induction h with
  | done texts => exact le_rfl
  | round hstep _ ih => exact ih.trans (hstep.addsNone name)

/-- **The rounds** end with the check of the final texts, after a run of rounds. -/
theorem rounds_spec (hcheck : ∀ texts, SelfApart (check texts)) (n : ℕ) (o : Outcome Code)
    (rejected : List (Key × String)) (ho : o.remaining = check o.texts) :
    ∃ o', rounds codes check mode n o rejected = some o' ∧ o'.remaining = check o'.texts ∧
      ∃ changes, o'.changes = o.changes ++ changes ∧
        Run codes check mode o.texts changes o'.texts := by
  induction n generalizing o rejected with
  | zero => exact ⟨o, rfl, ho, [], by simp, .done _⟩
  | succ n ih =>
    have hnil : Planned codes mode o.texts (check o.texts) [] := ⟨by simp, by simp, by simp [Apart]⟩
    obtain ⟨offered, hplan, hplanned⟩ := planFrom_spec rejected (hcheck o.texts) (fun _ h => h) hnil
    rw [rounds, ho, plan, hplan]
    show ∃ o', (if offered.isEmpty then _ else _) = some o' ∧ _
    split
    · exact ⟨o, rfl, ho, [], by simp, .done _⟩
    · obtain ⟨k, hround, hsub, out, hout, hcurrent, hcount⟩ := round_spec hplanned rejected
      rw [hround]
      show ∃ o', (if k.kept.isEmpty then _ else _) = some o' ∧ _
      split
      · exact ih o k.rejected ho
      · have hkept := hplanned.sublist hsub
        obtain ⟨out', hout', hsubstituted, horder⟩ := apply_spec hkept.fit hkept.apart
        rw [hout] at hout'
        cases hout'
        rw [hout]
        obtain ⟨o', hrounds, hremaining, changes, hchanges, hrun⟩ :=
          ih ⟨out, o.changes ++ k.kept, k.current⟩ k.rejected hcurrent
        refine ⟨o', hrounds, hremaining, k.kept ++ changes, ?_, .round ?_ hrun⟩
        · rw [hchanges, append_assoc]
        · exact ⟨hkept.offered, hsubstituted, horder, fun name => hcurrent ▸ hcount name⟩

/-- **Applying fix-its is safe.** For every check whose fix-its' edits do not overlap each other,
fixing ends without a panic. Its remaining diagnostics are the check of its texts, and no key occurs
more often among them than in the first check. The texts come from the first ones by rounds: each
substitutes the edits of its changes at once, in whatever order they are given, and the check of the
texts before it offered each of them; the changes listed are those of the rounds. -/
theorem fix_safe (codes : Codes Code) (check : Texts → List (Diag Code)) (mode : Mode)
    (texts : Texts) (hcheck : ∀ texts, SelfApart (check texts)) :
    ∃ o, fix codes check texts mode = some o ∧ o.remaining = check o.texts ∧
      (∀ name, occurrences codes o.remaining name ≤ occurrences codes (check texts) name) ∧
      Run codes check mode texts o.changes o.texts := by
  obtain ⟨o, hfix, hremaining, changes, hchanges, hrun⟩ :=
    @rounds_spec Code _ codes mode check hcheck ROUNDS ⟨texts, [], check texts⟩ [] rfl
  rw [List.nil_append] at hchanges
  refine ⟨o, hfix, hremaining, fun name => ?_, hchanges ▸ hrun⟩
  rw [hremaining]
  exact hrun.addsNone name

end Rounds

/-- A check that offers to insert what a text lacks. -/
def insertCheck (texts : Texts) : List (Diag Bool) :=
  if texts "f.hd" = some ['a'] then
    [⟨some true, true, "expected b", some "f.hd",
      [⟨"insert b", [⟨"f.hd", 1, 1, ['b']⟩], true⟩]⟩]
  else []

theorem fix_safe_insert :
    (∀ texts, SelfApart (insertCheck texts)) ∧
      ∃ o, fix ⟨toString, true, false⟩ insertCheck (fun _ => some ['a']) .lint = some o ∧
        o.remaining = insertCheck o.texts ∧
        (∀ name, occurrences ⟨toString, true, false⟩ o.remaining name ≤
          occurrences ⟨toString, true, false⟩ (insertCheck fun _ => some ['a']) name) ∧
        Run ⟨toString, true, false⟩ insertCheck .lint (fun _ => some ['a']) o.changes o.texts := by
  have hcheck : ∀ texts, SelfApart (insertCheck texts) := by
    intro texts d hd f hf
    unfold insertCheck at hd
    split at hd
    · rw [List.mem_singleton.mp hd] at hf
      rw [List.mem_singleton.mp hf]
      exact List.pairwise_singleton _ _
    · cases hd
  exact ⟨hcheck, fix_safe _ _ _ _ hcheck⟩

end HdLang.Fix
