import HdLang.Arith

/-!
# Patterns of `std.regex`

The syntax tree of a pattern and the parser. A text is the list of its scalar values; positions in it are
byte offsets of its UTF-8 form. The parser's nesting is given fuel.
-/

namespace HdLang.Regexp

/-- A text, by its scalar values. -/
abbrev Text : Type := List Char

/-- `RegexError`, as far as `Regex::new` returns it. -/
inductive RegexError
  | missingParen (position : ℕ)
  | unmatchedParen (position : ℕ)
  | missingBracket (position : ℕ)
  | badEscape (position : ℕ)
  | badRange (position : ℕ)
  | nothingToRepeat (position : ℕ)
  | badRepeat (position : ℕ)
  | unsupportedGroup (position : ℕ)
  | badGroupName (position : ℕ)
  | duplicateGroupName (position : ℕ)
  | tooLarge (position : ℕ)
  deriving DecidableEq, Repr

/-- Why `Regex::new` gives no regex: an error, or a stop of the run. -/
inductive Trouble
  | error (e : RegexError)
  | stop (s : Stop)
  deriving DecidableEq, Repr

def maxProgram : ℕ := 10000

def maxRepeat : ℕ := 1000

/-! ### The syntax tree -/

inductive ClassItem
  | range (low high : Char)
  | digit (negated : Bool)
  | word (negated : Bool)
  | space (negated : Bool)
  deriving DecidableEq, Repr

inductive Node
  | empty
  | literal (value : Char)
  | anyChar
  | class (items : List ClassItem) (negated : Bool)
  | begin
  | end
  | group (body : Node) (index : ℕ)
  | concat (items : List Node)
  | alternate (branches : List Node)
  | repeat (body : Node) (min : ℕ) (max : Option ℕ) (greedy : Bool)

/-! ### Patterns -/

structure Pattern where
  chars : Text
  offsets : List ℕ

/-- The byte offset of each character from `start` on, and of the end. -/
def offsetsFrom (start : ℕ) : Text → List ℕ
  | [] => [start]
  | c :: text => start :: offsetsFrom (start + c.utf8Size) text

namespace Pattern

def of (text : Text) : Pattern := ⟨text, offsetsFrom 0 text⟩

/-- `Pattern.at` -/
def at? (source : Pattern) (index : ℕ) : Option Char := source.chars[index]?

def has (source : Pattern) (index : ℕ) (c : Char) : Bool := source.chars[index]? == some c

def piece (source : Pattern) (start stop : ℕ) : Text := (source.chars.drop start).take (stop - start)

end Pattern

/-- A parser, over the names of the groups so far. -/
abbrev Parse (α : Type) : Type := StateT (List Text) (Except Trouble) α

/-- An error at a byte offset. -/
def fail {α : Type} (e : ℕ → RegexError) (source : Pattern) (index : ℕ) : Except Trouble α :=
  match source.offsets[index]? with
  | some offset => .error (.error (e offset))
  | none => .error (.stop .outOfBounds)

/-- `source.chars[index]` -/
def charAt (source : Pattern) (index : ℕ) : Except Trouble Char :=
  match source.chars[index]? with
  | some c => .ok c
  | none => .error (.stop .outOfBounds)

/-! ### Quantifiers -/

structure Number where
  value : ℕ
  next : ℕ

def charDigit (c : Char) : ℕ := (List.findIdx? (· == c) "0123456789".toList).getD 0

/-- The loop of `number_at`. -/
def numberFrom (value next : ℕ) : Text → Number
  | [] => ⟨value, next⟩
  | c :: rest =>
    if c < '0' ∨ '9' < c then ⟨value, next⟩
    else numberFrom (if value < 100000 then value * 10 + charDigit c else value) (next + 1) rest

def numberAt (source : Pattern) (start : ℕ) : Number := numberFrom 0 start (source.chars.drop start)

structure Counts where
  min : ℕ
  max : Option ℕ
  next : ℕ

def countsAt (source : Pattern) (start : ℕ) : Option Counts :=
  if source.has start '\x7b' = false then none
  else
    let low := numberAt source (start + 1)
    if low.next = start + 1 then none
    else
      match source.at? low.next with
      | some '\x7d' => some ⟨low.value, some low.value, low.next + 1⟩
      | some ',' =>
        let high := numberAt source (low.next + 1)
        if source.has high.next '\x7d' = false then none
        else if high.next = low.next + 1 then some ⟨low.value, none, high.next + 1⟩
        else some ⟨low.value, some high.value, high.next + 1⟩
      | _ => none

def quantifierAt (source : Pattern) (index : ℕ) : Bool :=
  match source.at? index with
  | some c =>
    if c = '*' ∨ c = '+' ∨ c = '?' then true
    else decide (c = '\x7b') && (countsAt source index).isSome
  | none => false

structure Step where
  node : Node
  next : ℕ

/-- The node of a quantifier whose counts end before `next`, with its lazy `?`. -/
def repeated (source : Pattern) (atom : Step) (min : ℕ) (max : Option ℕ) (next : ℕ) : Step :=
  if source.has next '?' then ⟨.repeat atom.node min max false, next + 1⟩
  else ⟨.repeat atom.node min max true, next⟩

/-- Whether counts are too great, or out of order. -/
def badCounts (min : ℕ) : Option ℕ → Bool
  | none => decide (min > maxRepeat)
  | some high => decide (min > maxRepeat) || (decide (high > maxRepeat) || decide (high < min))

def parseRepeat (source : Pattern) (atom : Step) : Except Trouble Step :=
  match source.at? atom.next with
  | some '*' => .ok (repeated source atom 0 none (atom.next + 1))
  | some '+' => .ok (repeated source atom 1 none (atom.next + 1))
  | some '?' => .ok (repeated source atom 0 (some 1) (atom.next + 1))
  | some '\x7b' =>
    match countsAt source atom.next with
    | none => .ok atom
    | some counts =>
      if badCounts counts.min counts.max then fail .badRepeat source atom.next
      else .ok (repeated source atom counts.min counts.max counts.next)
  | _ => .ok atom

/-! ### Escapes and classes -/

structure Escape where
  item : Option ClassItem
  value : Char

def asciiPunctuation (c : Char) : Bool :=
  ('!' ≤ c && c ≤ '/') || (':' ≤ c && c ≤ '@') || ('[' ≤ c && c ≤ '\x60') || ('\x7b' ≤ c && c ≤ '~')

def parseEscape (source : Pattern) (index : ℕ) : Except Trouble Escape :=
  match source.at? (index + 1) with
  | none => fail .badEscape source index
  | some e =>
    if e = 'd' ∨ e = 'D' then .ok ⟨some (.digit (e == 'D')), e⟩
    else if e = 'w' ∨ e = 'W' then .ok ⟨some (.word (e == 'W')), e⟩
    else if e = 's' ∨ e = 'S' then .ok ⟨some (.space (e == 'S')), e⟩
    else if e = 'n' then .ok ⟨none, '\n'⟩
    else if e = 't' then .ok ⟨none, '\t'⟩
    else if e = 'r' then .ok ⟨none, '\r'⟩
    else if asciiPunctuation e then .ok ⟨none, e⟩
    else fail .badEscape source index

structure ClassChar where
  item : Option ClassItem
  value : Char
  next : ℕ

def classChar (source : Pattern) (index : ℕ) : Except Trouble ClassChar := do
  let c ← charAt source index
  if c = '\\' then do
    let escaped ← parseEscape source index
    return ⟨escaped.item, escaped.value, index + 2⟩
  else return ⟨none, c, index + 1⟩

/-- Whether a `-` at `index` starts a range. -/
def rangeAt (source : Pattern) (index : ℕ) : Bool :=
  source.has index '-' && (source.at? (index + 1)).isSome && !source.has (index + 1) ']'

/-- The loop of `parse_class`, over the items so far. -/
def classFrom (source : Pattern) (opened : ℕ) (negated : Bool) :
    (fuel : ℕ) → (items : List ClassItem) → (first : Bool) → (index : ℕ) → Except Trouble Step
  | 0, _, _, _ => .error (.stop .diverges)
  | fuel + 1, items, first, index =>
    match source.at? index with
    | none => fail .missingBracket source opened
    | some c =>
      if c = ']' ∧ first = false then .ok ⟨.class items negated, index + 1⟩
      else do
        let low ← classChar source index
        match low.item with
        | some item =>
          if rangeAt source low.next then fail .badRange source index
          else classFrom source opened negated fuel (items ++ [item]) false low.next
        | none =>
          if rangeAt source low.next then do
            let high ← classChar source (low.next + 1)
            if high.item.isSome ∨ high.value < low.value then fail .badRange source index
            else
              classFrom source opened negated fuel (items ++ [.range low.value high.value]) false
                high.next
          else
            classFrom source opened negated fuel (items ++ [.range low.value low.value]) false low.next

def parseClass (fuel : ℕ) (source : Pattern) (opened : ℕ) : Except Trouble Step :=
  if source.has (opened + 1) '^' then classFrom source opened true fuel [] true (opened + 2)
  else classFrom source opened false fuel [] true (opened + 1)

/-! ### Groups -/

def wordChar (c : Char) : Bool :=
  ('0' ≤ c && c ≤ '9') || ('a' ≤ c && c ≤ 'z') || ('A' ≤ c && c ≤ 'Z') || c == '_'

def groupName (source : Pattern) (start stop : ℕ) : Bool :=
  match source.piece start stop with
  | [] => false
  | first :: rest => !('0' ≤ first && first ≤ '9') && (first :: rest).all wordChar

/-- The index of the first `c` from `start` on, or the number of characters. -/
def findChar (source : Pattern) (c : Char) (start : ℕ) : ℕ :=
  start + (source.chars.drop start).findIdx (· == c)

/-- What opens a group: whether it captures, its name, and where its pattern starts. -/
structure Opening where
  capturing : Bool
  name : Text
  start : ℕ

/-- The opening of a named group whose name starts at `nameAt`. -/
def parseName (source : Pattern) (opened nameAt : ℕ) : Parse Opening := do
  let close := findChar source '>' nameAt
  if close ≥ source.chars.length ∨ groupName source nameAt close = false then
    fail .badGroupName source opened
  else
    let name := source.piece nameAt close
    if name ∈ (← get) then fail .duplicateGroupName source opened
    else return ⟨true, name, close + 1⟩

/-- The opening at a `(`. -/
def parseOpening (source : Pattern) (opened : ℕ) : Parse Opening :=
  let start := opened + 1
  if source.has start '?' then
    if source.has (start + 1) ':' then pure ⟨false, [], start + 2⟩
    else if source.has (start + 1) 'P' && source.has (start + 2) '<' then
      parseName source opened (start + 3)
    else if source.has (start + 1) '<' && !source.has (start + 2) '=' &&
        !source.has (start + 2) '!' then
      parseName source opened (start + 2)
    else fail .unsupportedGroup source opened
  else pure ⟨true, [], start⟩

/-! ### The parser -/

/-- The node of a sequence. -/
def concatOf : List Node → Node
  | [] => .empty
  | [item] => item
  | items => .concat items

/-- The node of alternatives. -/
def alternateOf : List Node → Node
  | [branch] => branch
  | branches => .alternate branches

mutual

/-- `parse_alternation`, over the branches so far. -/
def parseAlternation (source : Pattern) :
    (fuel : ℕ) → (index : ℕ) → (branches : List Node) → Parse Step
  | 0, _, _ => throw (.stop .diverges)
  | fuel + 1, index, branches => do
    let branch ← parseConcat source fuel index []
    let branches := branches ++ [branch.node]
    if source.has branch.next '|' then parseAlternation source fuel (branch.next + 1) branches
    else return ⟨alternateOf branches, branch.next⟩

/-- `parse_concat`, over the items so far. -/
def parseConcat (source : Pattern) :
    (fuel : ℕ) → (index : ℕ) → (items : List Node) → Parse Step
  | 0, _, _ => throw (.stop .diverges)
  | fuel + 1, index, items =>
    match source.at? index with
    | none => return ⟨concatOf items, index⟩
    | some c =>
      if c = '|' ∨ c = ')' then return ⟨concatOf items, index⟩
      else if quantifierAt source index then fail .nothingToRepeat source index
      else do
        let atom ← parseAtom source fuel index
        let step ← parseRepeat source atom
        parseConcat source fuel step.next (items ++ [step.node])

def parseAtom (source : Pattern) : (fuel : ℕ) → (index : ℕ) → Parse Step
  | 0, _ => throw (.stop .diverges)
  | fuel + 1, index => do
    let c ← charAt source index
    if c = '(' then parseGroup source fuel index
    else if c = '[' then parseClass fuel source index
    else if c = '.' then return ⟨.anyChar, index + 1⟩
    else if c = '^' then return ⟨.begin, index + 1⟩
    else if c = '$' then return ⟨.end, index + 1⟩
    else if c = '\\' then do
      let escaped ← parseEscape source index
      match escaped.item with
      | some item => return ⟨.class [item] false, index + 2⟩
      | none => return ⟨.literal escaped.value, index + 2⟩
    else return ⟨.literal c, index + 1⟩

def parseGroup (source : Pattern) : (fuel : ℕ) → (opened : ℕ) → Parse Step
  | 0, _ => throw (.stop .diverges)
  | fuel + 1, opened => do
    let opening ← parseOpening source opened
    let names ← get
    if opening.capturing then set (names ++ [opening.name])
    let inner ← parseAlternation source fuel opening.start []
    if source.has inner.next ')' = false then fail .missingParen source opened
    else if opening.capturing then return ⟨.group inner.node names.length, inner.next + 1⟩
    else return ⟨inner.node, inner.next + 1⟩

end

/-- The tree of a pattern and the names of its groups, or the first error it holds. -/
def parse (fuel : ℕ) (pattern : Text) : Except Trouble (Node × List Text) := do
  let source := Pattern.of pattern
  let (parsed, names) ← (parseAlternation source fuel 0 []).run [[]]
  if parsed.next < source.chars.length then fail .unmatchedParen source parsed.next
  else return (parsed.node, names)

end HdLang.Regexp
