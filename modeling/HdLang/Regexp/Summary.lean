import HdLang.Regexp.Compile
import Mathlib.Algebra.GroupWithZero.Nat

/-!
# The prefilter of a pattern

What every match of a pattern has, in bytes (`summarize`), and the prefilter taken from it: a literal
with the places where a match can hold it, and the bytes that a match can start with. A text of a summary
is the list of its bytes, a length is an integer, with -1 for no bound.
-/

namespace HdLang.Regexp

/-! ### Byte sets -/

/-- A set of bytes, in four words. -/
abbrev ByteSet : Type := List (BitVec 64)

def noBytes : ByteSet := [0, 0, 0, 0]

/-- The word and the bit of a byte, set. -/
def addByte (set : ByteSet) (byte : ℕ) : ByteSet :=
  set.modify (byte / 64) (· ||| (1#64 <<< (byte % 64)))

def addBytes (set : ByteSet) (low high : ℤ) : ByteSet :=
  (List.range' low.toNat (high - low + 1).toNat).foldl addByte set

def union (left right : ByteSet) : ByteSet := List.zipWith (· ||| ·) left right

/-- The number of bits of a word that are set. -/
def countOnes (word : BitVec 64) : ℕ := (List.range 64).countP word.getLsbD

def countBits (set : ByteSet) : ℕ := (set.map countOnes).sum

def continuation (byte : UInt8) : Bool := 128 ≤ byte && byte < 192

/-! ### Summaries -/

structure Summary where
  min : ℤ
  max : ℤ
  exact : Option (List UInt8)
  prefix' : List UInt8
  literal : List UInt8
  lo : ℤ
  hi : ℤ
  firsts : ByteSet

def exactSummary (text : List UInt8) (firsts : ByteSet) : Summary :=
  ⟨text.length, text.length, some text, text, text, 0, 0, firsts⟩

def openSummary (min max : ℤ) (firsts : ByteSet) : Summary := ⟨min, max, none, [], [], 0, 0, firsts⟩

def scalarBytes (point : ℤ) : ℤ :=
  if point < 128 then 1 else if point < 2048 then 2 else if point < 65536 then 3 else 4

def inClass : List ℤ → ℤ → Bool
  | low :: high :: ranges, point => (low ≤ point && point ≤ high) || inClass ranges point
  | _, _ => false

def addLeads (set : ByteSet) (low high first last unit base : ℤ) : ByteSet :=
  let start := if low > first then low else first
  let stop := if high < last then high else last
  if start ≤ stop then addBytes set (base + start / unit) (base + stop / unit) else set

/-- The first bytes of the scalars of one range. -/
def addRange (set : ByteSet) (low high : ℤ) : ByteSet :=
  let set := if low < 128 then addBytes set low (if high < 127 then high else 127) else set
  let set := addLeads set low high 128 2047 64 192
  let set := addLeads set low high 2048 65535 4096 224
  addLeads set low high 65536 1114111 262144 240

/-- The loop of `class_summary` over the ranges: the bounds of the lengths and the first bytes. -/
def rangesSummary (min max : ℤ) (firsts : ByteSet) : List ℤ → ℤ × ℤ × ByteSet
  | low :: high :: ranges =>
    rangesSummary (if scalarBytes low < min then scalarBytes low else min)
      (if scalarBytes high > max then scalarBytes high else max) (addRange firsts low high) ranges
  | _ => (min, max, firsts)

/-- The ASCII bytes outside the ranges. -/
def addOthers (ranges : List ℤ) (set : ByteSet) : ByteSet :=
  (List.range 128).foldl (fun set (byte : ℕ) => if inClass ranges byte then set else addByte set byte) set

def classSummary (ranges : List ℤ) (negated : Bool) : Summary :=
  if negated then openSummary 1 4 (addBytes (addOthers ranges noBytes) 192 255)
  else
    let (min, max, firsts) := rangesSummary 4 1 noBytes ranges
    openSummary min max firsts

def plus (left right : ℤ) : ℤ := if left < 0 ∨ right < 0 then -1 else left + right

def prefer (literal : List UInt8) (hi : ℤ) (best : List UInt8) (bestHi : ℤ) : Bool :=
  if literal = [] then false
  else if best = [] then true
  else if decide (hi ≥ 0) ≠ decide (bestHi ≥ 0) then decide (hi ≥ 0)
  else decide (literal.length > best.length)

def sameText : Option (List UInt8) → Option (List UInt8) → Option (List UInt8)
  | some a, some b => if a = b then some a else none
  | _, _ => none

/-- The length of the common start of two texts. -/
def commonSize : List UInt8 → List UInt8 → ℕ
  | a :: left, b :: right => if a = b then commonSize left right + 1 else 0
  | _, _ => 0

/-- A length moved back to the start of a scalar. -/
def boundaryBefore (text : List UInt8) : ℕ → ℕ
  | 0 => 0
  | size + 1 =>
    match text[size + 1]? with
    | some byte => if continuation byte then boundaryBefore text size else size + 1
    | none => size + 1

def commonPrefix (left right : List UInt8) : List UInt8 :=
  left.take (boundaryBefore left (commonSize left right))

/-! ### Sequences -/

/-- The literal of a sequence so far, with its places. -/
structure Required where
  literal : List UInt8
  lo : ℤ
  hi : ℤ

/-- The literal that is the better prefilter. -/
def Required.orBetter (best : Required) (literal : List UInt8) (lo hi : ℤ) : Required :=
  if prefer literal hi best.literal best.hi then ⟨literal, lo, hi⟩ else best

/-- The state of the loop of `concat_summary`. -/
structure Concat where
  min : ℤ
  max : ℤ
  best : Required
  run : List UInt8
  runLo : ℤ
  runHi : ℤ
  head : List UInt8
  opened : Bool
  exact : Bool
  firsts : ByteSet

/-- One turn of the loop of `concat_summary`. -/
def concatTurn (s : Concat) (summary : Summary) : Concat :=
  let firsts := if s.min = 0 then union s.firsts summary.firsts else s.firsts
  let best :=
    if summary.literal ≠ [] ∧ prefer summary.literal (plus s.max summary.hi) s.best.literal s.best.hi
    then ⟨summary.literal, s.min + summary.lo, plus s.max summary.hi⟩
    else s.best
  let min := s.min + summary.min
  let max := plus s.max summary.max
  match summary.exact with
  | some text =>
    ⟨min, max, best, s.run ++ text, s.runLo, s.runHi, if s.opened then s.head ++ text else s.head,
      s.opened, s.exact, firsts⟩
  | none =>
    ⟨min, max, best.orBetter (s.run ++ summary.prefix') s.runLo s.runHi, [], s.min + summary.min,
      plus s.max summary.max, if s.opened then s.head ++ summary.prefix' else s.head, false, false,
      firsts⟩

/-- `concat_summary`, of the summaries of the items. -/
def concatSummary (summaries : List Summary) : Summary :=
  let s := summaries.foldl concatTurn ⟨0, 0, ⟨[], 0, 0⟩, [], 0, 0, [], true, true, noBytes⟩
  let best := s.best.orBetter s.run s.runLo s.runHi
  ⟨s.min, s.max, if s.exact then some s.head else none, s.head, best.literal, best.lo, best.hi,
    s.firsts⟩

/-! ### Alternatives -/

/-- One turn of the loop of `alternate_summary`. -/
def alternateTurn (s other : Summary) : Summary :=
  let same := s.literal ≠ [] ∧ s.literal = other.literal
  { min := if other.min < s.min then other.min else s.min
    max := if s.max < 0 ∨ other.max < 0 then -1 else if other.max > s.max then other.max else s.max
    exact := sameText s.exact other.exact
    prefix' := commonPrefix s.prefix' other.prefix'
    literal := if same then s.literal else []
    lo := if same then (if other.lo < s.lo then other.lo else s.lo) else s.lo
    hi :=
      if same then
        (if s.hi < 0 ∨ other.hi < 0 then -1 else if other.hi > s.hi then other.hi else s.hi)
      else s.hi
    firsts := union s.firsts other.firsts }

/-- `alternate_summary`, of the summaries of the branches. -/
def alternateSummary : List Summary → Summary
  | [] => exactSummary [] noBytes
  | first :: others =>
    let s := others.foldl alternateTurn first
    if prefer s.prefix' 0 s.literal s.hi then { s with literal := s.prefix', lo := 0, hi := 0 } else s

/-! ### Repetitions -/

/-- The greatest length of a repetition. -/
def repeatMax (max : ℤ) : Option ℕ → ℤ
  | some count => if count = 0 ∨ max = 0 then 0 else if max > 0 then max * count else -1
  | none => if max = 0 then 0 else -1

def repeatSummary (body : Summary) (min : ℕ) (max : Option ℕ) : Summary :=
  let low := body.min * min
  let high := repeatMax body.max max
  if min = 0 then openSummary low high body.firsts
  else
    match body.exact with
    | some text =>
      let whole := (List.replicate min text).flatten
      ⟨low, high, if max = some min then some whole else none, whole, whole, 0, 0, body.firsts⟩
    | none => ⟨low, high, none, body.prefix', body.literal, body.lo, body.hi, body.firsts⟩

mutual

def summarize : Node → Summary
  | .empty => exactSummary [] noBytes
  | .begin => exactSummary [] noBytes
  | .end => exactSummary [] noBytes
  | .literal value =>
    let text := String.utf8EncodeChar value
    let lead : ℤ := (text.headD 0).toNat
    exactSummary text (addBytes noBytes lead lead)
  | .anyChar =>
    -- Any scalar but a newline.
    openSummary 1 4 (addBytes (addBytes (addBytes noBytes 0 9) 11 127) 192 255)
  | .class items negated => classSummary (classRanges items) negated
  | .group body _ => summarize body
  | .concat items => concatSummary (summarizeAll items)
  | .alternate branches => alternateSummary (summarizeAll branches)
  | .repeat body min max _ => repeatSummary (summarize body) min max

/-- The summaries of nodes. -/
def summarizeAll : List Node → List Summary
  | [] => []
  | node :: nodes => summarize node :: summarizeAll nodes

end

structure Prefilter where
  literal : List UInt8
  lo : ℕ
  hi : ℤ
  firsts : ByteSet

def prefilter (node : Node) : Prefilter :=
  let summary := summarize node
  if summary.min = 0 then ⟨[], 0, 0, []⟩
  else
    ⟨summary.literal, summary.lo.toNat, summary.hi,
      if countBits summary.firsts ≥ 128 then [] else summary.firsts⟩

/-! ### Regexes -/

structure Regex where
  text : Text
  program : Program
  filter : Prefilter
  names : List Text

def Regex.new (fuel : ℕ) (pattern : Text) : Except Trouble Regex := do
  let (node, names) ← parse fuel pattern
  match programSize node with
  | .error s => throw (.stop s)
  | .ok size =>
    if size > maxProgram then throw (.error (.tooLarge 0))
    else return ⟨pattern, lower (compile node [] ++ [.done]), prefilter node, names⟩

end HdLang.Regexp
