import Mathlib.Algebra.Group.Nat.Defs
import Mathlib.Data.List.Basic
import Mathlib.Order.Nat

/-!
# The diagnostics buffer

`DiagBuf` holds diagnostics as columns, a row a diagnostic. The labels and fix-its of all rows are
pooled, and a row owns a range of each pool; a fix-it owns a range of the edits, and every text is a
range of `text`. A mark is the columns' lengths and `truncate` goes back to one.

An operation gives `none` where it panics: a column longer than a `u32` counts, or a range of
another buffer that runs past its column. A text is its bytes.
-/

namespace HdLang.Diag

/-- A range of a column. -/
structure Range32 where
  start : ℕ
  len : ℕ
  deriving DecidableEq, Repr

/-- The end of a range. -/
def Range32.stop (r : Range32) : ℕ := r.start + r.len

inductive Severity
  | error
  | warning
  deriving DecidableEq, Repr

inductive FixSafety
  | exact
  | suggestion
  deriving DecidableEq, Repr

/-- The bytes of a `str`. -/
abbrev Bytes : Type := List UInt8

/-- The codes, the spans and the root keys of the diagnostics. -/
structure Parts where
  Code : Type
  Span : Type
  RootKey : Type
  [root : DecidableEq RootKey]

instance (P : Parts) : DecidableEq P.RootKey := P.root

structure FixEdit (P : Parts) where
  span : P.Span
  text : Range32

/-- A rollback point: the columns' lengths. -/
structure DiagMark where
  rows : ℕ
  labelSpan : ℕ
  fixTitle : ℕ
  edits : ℕ
  text : ℕ
  deriving DecidableEq, Repr

@[ext] structure DiagBuf (P : Parts) where
  code : List P.Code
  severity : List Severity
  primary : List P.Span
  message : List Range32
  labels : List Range32
  fixes : List Range32
  root : List (Option P.RootKey)
  labelSpan : List P.Span
  labelMsg : List Range32
  fixTitle : List Range32
  fixSafety : List FixSafety
  fixEdits : List Range32
  edits : List (FixEdit P)
  text : Bytes

variable {P : Parts}

/-- `u32::try_from(n).expect(..)` -/
def toU32 (n : ℕ) : Option ℕ := if n < 2 ^ 32 then some n else none

namespace DiagBuf

/-- `DiagBuf::default()` -/
def empty (P : Parts) : DiagBuf P :=
  ⟨[], [], [], [], [], [], [], [], [], [], [], [], [], []⟩

/-- `self.text(s)`: the buffer with the text, and its range. -/
def pushText (b : DiagBuf P) (s : Bytes) : Option (DiagBuf P × Range32) := do
  let start ← toU32 b.text.length
  let len ← toU32 s.length
  return ({ b with text := b.text ++ s }, ⟨start, len⟩)

def getText (b : DiagBuf P) (r : Range32) : Option Bytes :=
  if r.stop < 2 ^ 32 ∧ r.stop ≤ b.text.length then some ((b.text.drop r.start).take r.len) else none

/-- What a diagnostic is pushed with. -/
structure Row (P : Parts) where
  code : P.Code
  severity : Severity
  primary : P.Span
  message : Bytes
  root : Option P.RootKey

/-- `push`: a second diagnostic with the same root is dropped. -/
def push (b : DiagBuf P) (d : Row P) : Option (DiagBuf P × Bool) :=
  if d.root.isSome ∧ d.root ∈ b.root then some (b, false)
  else do
    let (b, message) ← b.pushText d.message
    let nl ← toU32 b.labelSpan.length
    let nf ← toU32 b.fixTitle.length
    return ({ b with
      code := b.code ++ [d.code]
      severity := b.severity ++ [d.severity]
      primary := b.primary ++ [d.primary]
      message := b.message ++ [message]
      labels := b.labels ++ [⟨nl, 0⟩]
      fixes := b.fixes ++ [⟨nf, 0⟩]
      root := b.root ++ [d.root] }, true)

/-- `last_mut()` with `row.len += 1`: the ranges, the last one longer. -/
def lengthen (ranges : List Range32) (last : Range32) : Option (List Range32) := do
  let len ← toU32 (last.len + 1)
  return ranges.dropLast ++ [{ last with len }]

/-- The edits of a fix-it, each with its text. -/
def pushEdits (b : DiagBuf P) : List (P.Span × Bytes) → Option (DiagBuf P)
  | [] => some b
  | (span, text) :: edits => do
    let (b, text) ← b.pushText text
    pushEdits { b with edits := b.edits ++ [⟨span, text⟩] } edits

/-- `add_fix`: a fix-it for the last row. -/
def addFix (b : DiagBuf P) (title : Bytes) (safety : FixSafety) (edits : List (P.Span × Bytes)) :
    Option (DiagBuf P) :=
  match b.fixes.getLast? with
  | none => some b
  | some row => do
    let fixes ← lengthen b.fixes row
    let (b, title) ← { b with fixes }.pushText title
    let start ← toU32 b.edits.length
    let len ← toU32 edits.length
    pushEdits { b with
      fixTitle := b.fixTitle ++ [title]
      fixSafety := b.fixSafety ++ [safety]
      fixEdits := b.fixEdits ++ [⟨start, len⟩] } edits

/-- `add_label`: a label for the last row. -/
def addLabel (b : DiagBuf P) (span : P.Span) (message : Bytes) : Option (DiagBuf P) :=
  match b.labels.getLast? with
  | none => some b
  | some row => do
    let labels ← lengthen b.labels row
    let (b, message) ← { b with labels }.pushText message
    return { b with labelSpan := b.labelSpan ++ [span], labelMsg := b.labelMsg ++ [message] }

/-- The positions of a range, counted in `u32`. -/
def positions (r : Range32) : Option (List ℕ) := do
  let _ ← toU32 r.stop
  return List.range' r.start r.len

/-- The labels of another buffer, for the last row. -/
def addLabels (b other : DiagBuf P) : List ℕ → Option (DiagBuf P)
  | [] => some b
  | label :: rest => do
    let span ← other.labelSpan[label]?
    let range ← other.labelMsg[label]?
    let message ← other.getText range
    let b ← b.addLabel span message
    addLabels b other rest

/-- A fix-it's edits, with their texts. -/
def editTexts (other : DiagBuf P) (r : Range32) : Option (List (P.Span × Bytes)) :=
  if r.stop < 2 ^ 32 ∧ r.stop ≤ other.edits.length then
    ((other.edits.drop r.start).take r.len).mapM fun e => do
      let text ← other.getText e.text
      return (e.span, text)
  else none

/-- The fix-its of another buffer, for the last row. -/
def addFixes (b other : DiagBuf P) : List ℕ → Option (DiagBuf P)
  | [] => some b
  | f :: rest => do
    let range ← other.fixEdits[f]?
    let edits ← other.editTexts range
    let titleRange ← other.fixTitle[f]?
    let title ← other.getText titleRange
    let safety ← other.fixSafety[f]?
    let b ← b.addFix title safety edits
    addFixes b other rest

/-- Row `i` of another buffer, with its labels and its fix-its, unless its root is there. -/
def appendRow (b other : DiagBuf P) (i : ℕ) : Option (DiagBuf P) := do
  let code ← other.code[i]?
  let severity ← other.severity[i]?
  let primary ← other.primary[i]?
  let range ← other.message[i]?
  let message ← other.getText range
  let root ← other.root[i]?
  let (b, pushed) ← b.push ⟨code, severity, primary, message, root⟩
  if pushed then
    let labels ← other.labels[i]?
    let b ← b.addLabels other (← positions labels)
    let fixes ← other.fixes[i]?
    b.addFixes other (← positions fixes)
  else return b

/-- The rows of another buffer from `i` on whose code `keep` takes. -/
def appendFrom (b other : DiagBuf P) (keep : P.Code → Bool) : List ℕ → Option (DiagBuf P)
  | [] => some b
  | i :: rest => do
    let code ← other.code[i]?
    let b ← (if keep code then b.appendRow other i else some b)
    appendFrom b other keep rest

def appendIf (b other : DiagBuf P) (keep : P.Code → Bool) : Option (DiagBuf P) :=
  b.appendFrom other keep (List.range other.code.length)

def append (b other : DiagBuf P) : Option (DiagBuf P) := b.appendIf other fun _ => true

/-- The columns' lengths. -/
def lengths (b : DiagBuf P) : DiagMark :=
  ⟨b.code.length, b.labelSpan.length, b.fixTitle.length, b.edits.length, b.text.length⟩

def mark (b : DiagBuf P) : Option DiagMark := do
  let rows ← toU32 b.code.length
  let labelSpan ← toU32 b.labelSpan.length
  let fixTitle ← toU32 b.fixTitle.length
  let edits ← toU32 b.edits.length
  let text ← toU32 b.text.length
  return ⟨rows, labelSpan, fixTitle, edits, text⟩

def truncate (b : DiagBuf P) (m : DiagMark) : DiagBuf P where
  code := b.code.take m.rows
  severity := b.severity.take m.rows
  primary := b.primary.take m.rows
  message := b.message.take m.rows
  labels := b.labels.take m.rows
  fixes := b.fixes.take m.rows
  root := b.root.take m.rows
  labelSpan := b.labelSpan.take m.labelSpan
  labelMsg := b.labelMsg.take m.labelSpan
  fixTitle := b.fixTitle.take m.fixTitle
  fixSafety := b.fixSafety.take m.fixTitle
  fixEdits := b.fixEdits.take m.fixTitle
  edits := b.edits.take m.edits
  text := b.text.take m.text

/-- A call that a user of the buffer makes. -/
inductive Call (P : Parts) where
  | push (d : Row P)
  | addFix (title : Bytes) (safety : FixSafety) (edits : List (P.Span × Bytes))
  | addLabel (span : P.Span) (message : Bytes)
  | append (other : DiagBuf P)
  | appendIf (other : DiagBuf P) (keep : P.Code → Bool)

/-- The buffer after a call. -/
def call (b : DiagBuf P) : Call P → Option (DiagBuf P)
  | .push d => (b.push d).map Prod.fst
  | .addFix title safety edits => b.addFix title safety edits
  | .addLabel span message => b.addLabel span message
  | .append other => b.append other
  | .appendIf other keep => b.appendIf other keep

/-- The buffer after a sequence of calls. -/
def calls (b : DiagBuf P) : List (Call P) → Option (DiagBuf P)
  | [] => some b
  | c :: cs => do
    let b ← b.call c
    calls b cs

end DiagBuf

end HdLang.Diag
