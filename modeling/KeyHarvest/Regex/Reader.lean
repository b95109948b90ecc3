import KeyHarvest.Regex.Basic
import KeyHarvest.Regex.Engine
import KeyHarvest.Text.Digit

/-!
# Reading regular expressions

The written form of regular expressions, read into trees. What is read from the front of the text
is a `Read` action on the reader's state: the unread text, the flags in force, the number of groups
opened and their names. A text that is no expression gives `none`; there is no look-around and no
reference back to a group, and constructs are nested at most 250 deep. What properties there are is
for the engine to say.

Flags set inside a group hold to its end, also in later alternatives.
-/

namespace KeyHarvest.Regex.Reader

/-- What flags change in the meaning of an expression. -/
structure Flags where
  /-- Case does not count. -/
  ignoreCase : Bool
  /-- `^` and `$` hold at every line. -/
  multiLine : Bool := false
  /-- `.` is every character. -/
  dotAll : Bool := false
  /-- Repetitions are lazy, and greedy with a `?`. -/
  swapGreed : Bool := false
  /-- Named classes hold the characters of all scripts. -/
  unicode : Bool := true
  /-- A carriage return ends lines too. -/
  crlf : Bool := false
  /-- Blanks and comments do not count. -/
  spaced : Bool := false
  deriving DecidableEq, Repr

/-- The state of the reader. -/
structure Progress where
  /-- The unread text. -/
  rest : List Char
  /-- The flags in force. -/
  flags : Flags
  /-- The number of groups opened. -/
  groups : Nat := 0
  /-- The names of groups. -/
  names : List (List Char) := []

/-- An action that reads from the front of the text, or refuses it. -/
abbrev Read := StateT Progress Option

/-- Refuse the text. -/
def refuse {α : Type} : Read α := fun _ ↦ none

/-- Accept only if a condition holds. -/
def require (b : Bool) : Read Unit :=
  if b then pure () else refuse

/-- What a reader returns, a missing result being a refusal. -/
def demand {α : Type} : Option α → Read α
  | some a => pure a
  | none => refuse

/-- The unread text. -/
def unread : Read (List Char) :=
  return (← get).rest

/-- The next character, if there is one. -/
def peek? : Read (Option Char) :=
  return (← get).rest.head?

/-- The next character, which must be there. -/
def peek : Read Char := do
  demand (← peek?)

/-- Pass over characters. -/
def skip (n : Nat) : Read Unit :=
  modify fun p ↦ { p with rest := p.rest.drop n }

/-- Pass over a text if it comes next, and say whether it did. -/
def skipIf (text : String) : Read Bool := do
  if text.toList.isPrefixOf (← unread) then
    skip text.length
    return true
  else return false

/-- The text after blanks and comments. -/
def withoutSpace : Nat → List Char → List Char
  | 0, cs => cs
  | fuel + 1, cs =>
    match cs with
    | [] => []
    | c :: rest =>
      if Text.isBlank c then withoutSpace fuel rest
      else if c = '#' then withoutSpace fuel ((rest.dropWhile (· != '\n')).drop 1)
      else cs

/-- Pass over blanks and comments where they do not count. -/
def skipSpace : Read Unit :=
  modify fun p ↦ if p.flags.spaced then { p with rest := withoutSpace p.rest.length p.rest } else p

/-- Pass over a character and the space after it. -/
def advance : Read Unit := do
  skip 1
  skipSpace

/-- Pass over a character and the space after it; more text must follow. -/
def advanceToMore : Read Unit := do
  advance
  require (← peek?).isSome

/-- Pass over a character, which must be the given one. -/
def expect (c : Char) : Read Unit := do
  require ((← peek?) == some c)
  skip 1

/-- The closure of a class under case, where case does not count. -/
def closeCase (s : CharClass) : Read CharClass :=
  return if (← get).flags.ignoreCase then .folded s else s

/-- A class or its complement. -/
def negateIf (negated : Bool) (s : CharClass) : CharClass :=
  if negated then .compl s else s

/-- One character as an expression. -/
def oneChar (c : Char) : Read Regex := do
  let flags := (← get).flags
  if !flags.ignoreCase then return .set (.single c)
  else if flags.unicode then return .set (.like c)
  else if c.isAlpha then return .set (CharClass.ofList [c.toLower, c.toUpper])
  else return .set (.single c)

/-! ### Nesting -/

/-- Something read, with the depth to which the constructs in it are nested: groups, repetitions,
bracketed classes, and any two parts put together. -/
structure Nested (α : Type) where
  /-- What was read. -/
  item : α
  /-- The greatest number of constructs around one another in it. -/
  depth : Nat := 0

namespace Nested

/-- A construct around a single part. -/
def wrap {α β : Type} (make : α → β) (x : Nested α) : Nested β :=
  ⟨make x.item, x.depth + 1⟩

/-- Parts put together. A single part stays what it is. -/
def join {α β : Type} (make : List α → β) (parts : List (Nested α)) : Nested β :=
  let depth := (parts.map Nested.depth).foldl max 0
  ⟨make (parts.map Nested.item), if parts.length ≤ 1 then depth else depth + 1⟩

end Nested

/-- The greatest depth to which constructs may be nested. -/
def maxNesting : Nat := 250

/-! ### Numbers -/

/-- The character of a code point, if it is one. -/
def charOf (n : Nat) : Read Char := do
  require n.isValidChar
  return Char.ofNat n

/-- Read a number of hexadecimal digits, the first one being next. -/
def hexDigits : Nat → Read (List Char)
  | 0 => pure []
  | n + 1 => do
    let c ← peek
    require (Text.hexValue? c).isSome
    advance
    return c :: (← hexDigits n)

/-- Read hexadecimal digits up to a closing brace. -/
def hexToBrace : Nat → Read (List Char)
  | 0 => refuse
  | fuel + 1 => do
    let c ← peek
    if c = '\x7d' then
      advance
      return []
    else
      require (Text.hexValue? c).isSome
      advance
      return c :: (← hexToBrace fuel)

/-- Read a character given by its code point: in braces, or with a fixed number of digits. -/
def hexChar (digits : Nat) : Read Char := do
  advanceToMore
  if (← peek) = '\x7b' then
    advance
    let cs ← hexToBrace ((← unread).length + 1)
    require !cs.isEmpty
    require (cs.length ≤ 16)
    charOf (← demand (Text.hexNumber? cs))
  else charOf (← demand (Text.hexNumber? (← hexDigits digits)))

/-- Pass over blanks. -/
def skipBlanks : Read Unit :=
  modify fun p ↦ { p with rest := Text.trimStart p.rest }

/-- Read decimal digits. -/
def decimalDigits : Nat → Read (List Char)
  | 0 => pure []
  | fuel + 1 => do
    match ← peek? with
    | some c =>
      if c.isDigit then
        advance
        return c :: (← decimalDigits fuel)
      else return []
    | none => return []

/-- Read a decimal number of 32 bits, blanks around it not counting. -/
def decimal : Read Nat := do
  skipBlanks
  let cs ← decimalDigits (← unread).length
  skipBlanks
  require !cs.isEmpty
  let n := Text.decimalNumber cs
  require (n < Nat.pow 2 32)
  return n

/-! ### Escapes -/

/-- What an escape stands for. -/
inductive Escape where
  | char (c : Char)
  | set (s : CharClass)
  | look (a : Assertion)

/-- The characters of words under the flags. -/
def wordClass (flags : Flags) : CharClass :=
  if flags.unicode then .wordChar else CharClass.asciiWord

/-- The class of a letter such as `d`, `s` or `w`, which in upper case names the complement.
Without the characters of all scripts the complement is refused, for it would hold half
characters. -/
def letterClass (c : Char) : Read CharClass := do
  let flags := (← get).flags
  let s ← match c.toLower with
    | 'd' => pure (if flags.unicode then CharClass.digit else CharClass.asciiDigit)
    | 's' => pure (if flags.unicode then CharClass.blank else CharClass.asciiSpace)
    | _ => pure (wordClass flags)
  require (flags.unicode || c.isLower)
  return negateIf c.isUpper s

/-- Read the name of a property up to its closing brace. -/
def propertyName : Nat → Read (List Char)
  | 0 => refuse
  | fuel + 1 => do
    let c ← peek
    if c = '\x7d' then
      skip 1
      return []
    else
      advance
      return c :: (← propertyName fuel)

/-- The two sides of the first place in a text where a mark stands. -/
def splitOnce? (mark : List Char) : List Char → Option (List Char × List Char)
  | [] => none
  | c :: cs =>
    if mark.isPrefixOf (c :: cs) then some ([], (c :: cs).drop mark.length)
    else (splitOnce? mark cs).map fun (front, back) ↦ (c :: front, back)

/-- The class of a property between braces, with or without a value, and whether the other
characters are meant. -/
def bracedProperty (engine : Engine) (cs : List Char) : Option (Bool × CharClass) :=
  match splitOnce? ['!', '='] cs with
  | some (name, value) => (engine.propertyValue? name value).map (engine.unequal, ·)
  | none =>
    match (splitOnce? [':'] cs).or (splitOnce? ['='] cs) with
    | some (name, value) => (engine.propertyValue? name value).map (false, ·)
    | none => (engine.property? cs).map (false, ·)

/-- Read the class of a Unicode property, its letter `p` or `P` being next. -/
def propertyClass (engine : Engine) : Read CharClass := do
  let negated := (← peek) == 'P'
  require (← get).flags.unicode
  advanceToMore
  let c ← peek
  let (other, s) ←
    if c = '\x7b' then do
      advance
      demand (bracedProperty engine (← propertyName ((← unread).length + 1)))
    else do
      require (c != '\\')
      advance
      demand ((engine.property? [c]).map (false, ·))
  return negateIf (negated != other) (← closeCase s)

/-- Whether a character can stand in the name of a boundary. -/
def isBoundaryChar (c : Char) : Bool :=
  c.isAlpha || c == '-'

/-- Read the name of a boundary. -/
def boundaryName : Nat → Read (List Char)
  | 0 => pure []
  | fuel + 1 => do
    match ← peek? with
    | some c =>
      if isBoundaryChar c then
        advance
        return c :: (← boundaryName fuel)
      else return []
    | none => return []

/-- Read what follows `\b`: a named boundary in braces, unless the braces hold no name. -/
def boundary (word : CharClass) : Read Assertion := do
  if (← peek?) != some '\x7b' then return .wordBoundary word
  let start ← get
  advanceToMore
  if !isBoundaryChar (← peek) then
    modify fun _ ↦ start
    return .wordBoundary word
  let name ← boundaryName (← unread).length
  expect '\x7d'
  match String.ofList name with
  | "start" => return .wordStart word
  | "end" => return .wordEnd word
  | "start-half" => return .wordStartHalf word
  | "end-half" => return .wordEndHalf word
  | _ => refuse

/-- Whether a character stands for itself after a backslash: every ASCII character but letters,
digits and the two angle brackets. -/
def standsForItself (c : Char) : Bool :=
  c.toNat < 128 && !c.isAlphanum && c != '<' && c != '>'

/-- Read an escape, its backslash being next. -/
def escape (engine : Engine) : Read Escape := do
  skip 1
  let c ← peek
  if c.isDigit then refuse
  else if c = 'x' then return .char (← hexChar 2)
  else if c = 'u' then return .char (← hexChar 4)
  else if c = 'U' then return .char (← hexChar 8)
  else if c = 'p' ∨ c = 'P' then return .set (← propertyClass engine)
  else
    skip 1
    if standsForItself c then return .char c
    let word := wordClass (← get).flags
    match c with
    | 'd' | 's' | 'w' | 'D' | 'S' | 'W' => return .set (← letterClass c)
    | 'a' => return .char '\x07'
    | 'f' => return .char '\x0c'
    | 'n' => return .char '\n'
    | 'r' => return .char '\r'
    | 't' => return .char '\t'
    | 'v' => return .char '\x0b'
    | 'A' => return .look .textStart
    | 'z' => return .look .textEnd
    | 'b' => return .look (← boundary word)
    | 'B' => return .look (.noWordBoundary word)
    | '<' => return .look (.wordStart word)
    | '>' => return .look (.wordEnd word)
    | _ => refuse

/-! ### Bracketed classes -/

/-- An element of a bracketed class: a character, which can end a range, or a class. -/
inductive Element where
  | char (c : Char)
  | set (s : CharClass)

/-- Read an element of a bracketed class. -/
def element (engine : Engine) : Read Element := do
  let c ← peek
  if c = '\\' then
    match ← escape engine with
    | .char c => return .char c
    | .set s => return .set s
    | .look _ => refuse
  else
    skip 1
    return .char c

/-- Read an element or a range. A hyphen before the closing bracket or before another hyphen makes
no range. -/
def elementOrRange (engine : Engine) : Read CharClass := do
  let first ← element engine
  skipSpace
  require (← peek?).isSome
  let p ← get
  let afterHyphen :=
    if p.flags.spaced then withoutSpace p.rest.length (p.rest.drop 1) else p.rest.drop 1
  if p.rest.head? != some '-' || afterHyphen.head? == some ']' || afterHyphen.head? == some '-' then
    match first with
    | .char c => return .single c
    | .set s => return s
  else
    advanceToMore
    match first, ← element engine with
    | .char a, .char b =>
      require (a ≤ b)
      return .range a.toNat b.toNat
    | _, _ => refuse

/-- The name of a bracket expression at the front of a text, whether it is negated, and how many
characters it takes, as in `[:alpha:]`. -/
def bracketName? (cs : List Char) : Option (Bool × CharClass × Nat) :=
  match cs with
  | '[' :: ':' :: rest =>
    let negated := rest.head? == some '^'
    let rest := if negated then rest.drop 1 else rest
    let name := rest.takeWhile (· != ':')
    match rest.dropWhile (· != ':') with
    | ':' :: ']' :: _ =>
      (CharClass.ofBracketName? (String.ofList name)).map
        (negated, ·, name.length + 4 + if negated then 1 else 0)
    | _ => none
  | _ => none

/-- An operation between two classes. -/
inductive Operation where
  | inter
  | diff
  | symmDiff

/-- The result of an operation. -/
def Operation.apply : Operation → CharClass → CharClass → CharClass
  | .inter, a, b => .inter a b
  | .diff, a, b => a.diff b
  | .symmDiff, a, b => a.symmDiff b

/-- The operation whose sign comes next in a text. -/
def operation? : List Char → Option Operation
  | '&' :: '&' :: _ => some .inter
  | '-' :: '-' :: _ => some .diff
  | '~' :: '~' :: _ => some .symmDiff
  | _ => none

/-- Combine an operation waiting for its right side with that side. -/
def combine (pending : Option (Operation × Nested CharClass)) (right : Nested CharClass) :
    Read (Nested CharClass) := do
  match pending with
  | none => return right
  | some (op, left) =>
    return ⟨op.apply (← closeCase left.item) (← closeCase right.item),
      max left.depth right.depth + 1⟩

/-- Read the hyphens that a bracketed class may begin with. -/
def leadingHyphens : Nat → Read (List (Nested CharClass))
  | 0 => pure []
  | fuel + 1 => do
    if (← peek) = '-' then
      advanceToMore
      return { item := .single '-' } :: (← leadingHyphens fuel)
    else return []

mutual

/-- Read a bracketed class, its bracket being next. -/
def bracketed (engine : Engine) : Nat → Read (Nested CharClass)
  | 0 => refuse
  | fuel + 1 => do
    advanceToMore
    let negated := (← peek) == '^'
    if negated then advanceToMore
    let hyphens ← leadingHyphens (← unread).length
    let start ←
      if hyphens.isEmpty && (← peek) == ']' then do
        advanceToMore
        pure [{ item := CharClass.single ']' }]
      else pure hyphens
    let s ← bracketedItems engine fuel none start
    let closed ← closeCase s.item
    return s.wrap fun _ ↦ negateIf negated closed

/-- Read the elements of a bracketed class up to its closing bracket, after those of `sofar`, last
first, and with an operation waiting for them. -/
def bracketedItems (engine : Engine) : Nat → Option (Operation × Nested CharClass) →
    List (Nested CharClass) → Read (Nested CharClass)
  | 0, _, _ => refuse
  | fuel + 1, pending, sofar => do
    skipSpace
    let c ← peek
    if c = '[' then
      match bracketName? (← unread) with
      | some (negated, s, width) =>
        skip width
        let s := negateIf negated (← closeCase s)
        bracketedItems engine fuel pending ({ item := s } :: sofar)
      | none =>
        let s ← bracketed engine fuel
        bracketedItems engine fuel pending (s :: sofar)
    else if c = ']' then
      skip 1
      combine pending (.join CharClass.unions sofar.reverse)
    else
      match operation? (← unread) with
      | some op =>
        skip 2
        let left ← combine pending (.join CharClass.unions sofar.reverse)
        bracketedItems engine fuel (some (op, left)) []
      | none =>
        let s ← elementOrRange engine
        bracketedItems engine fuel pending ({ item := s } :: sofar)

end

/-- Whether a class without the characters of all scripts holds only ASCII characters, so that it
holds no half characters. -/
def isAscii (s : CharClass) : Bool :=
  match s with
  | .none => true
  | .single c | .like c => c.toNat < 128
  | .range _ high => high < 128
  | .union a b => isAscii a && isAscii b
  | .inter a b => isAscii a || isAscii b
  | .folded a => isAscii a
  | _ => false

/-- Read a bracketed class as an expression. -/
def bracketedSet (engine : Engine) : Read (Nested Regex) := do
  let s ← bracketed engine ((← unread).length + 1)
  require ((← get).flags.unicode || isAscii s.item)
  return ⟨.set s.item, s.depth⟩

/-! ### Flags, groups and repetitions -/

/-- Set or clear the flag of a letter. -/
def setFlag (flags : Flags) (c : Char) (on : Bool) : Option Flags :=
  match c with
  | 'i' => some { flags with ignoreCase := on }
  | 'm' => some { flags with multiLine := on }
  | 's' => some { flags with dotAll := on }
  | 'U' => some { flags with swapGreed := on }
  | 'u' => some { flags with unicode := on }
  | 'R' => some { flags with crlf := on }
  | 'x' => some { flags with spaced := on }
  | _ => none

/-- Read flags up to `:` or `)`, of which each may come once and a hyphen clears those after it;
`seen` are the signs already read. -/
def flagList : Nat → List Char → Flags → Read (List Char × Flags)
  | 0, _, _ => refuse
  | fuel + 1, seen, flags => do
    let c ← peek
    if c = ':' ∨ c = ')' then
      require (seen.head? != some '-')
      return (seen, flags)
    else
      require !seen.contains c
      skip 1
      if c = '-' then flagList fuel (c :: seen) flags
      else flagList fuel (c :: seen) (← demand (setFlag flags c !(seen.contains '-')))

/-- Whether a character can stand in the name of a group. -/
def isNameChar (first : Bool) (c : Char) : Bool :=
  if first then c == '_' || Text.isAlphabetic c
  else c == '_' || c == '.' || c == '[' || c == ']' || Text.isAlphanumeric c

/-- Read the name of a group up to its closing angle bracket. -/
def groupName : Read Unit := do
  let p ← get
  let name := p.rest.takeWhile (· != '>')
  require (name.length < p.rest.length)
  match name with
  | [] => refuse
  | c :: cs =>
    require (isNameChar true c && cs.all (isNameChar false))
    require !p.names.contains name
    modify fun p ↦ { p with rest := p.rest.drop (name.length + 1), names := name :: p.names }

/-- Open a group and return its number. -/
def openGroup : Read Nat := do
  modify fun p ↦ { p with groups := p.groups + 1 }
  return (← get).groups

/-- What an opening parenthesis begins. -/
inductive Opening where
  /-- A group with a number. -/
  | numbered (index : Nat)
  /-- A group without a number, under flags. -/
  | plain (flags : Flags)
  /-- Flags for the rest of the group around them. -/
  | flags (flags : Flags)

/-- Read what follows an opening parenthesis. -/
def opening : Read Opening := do
  let cs ← unread
  if ["?=", "?!", "?<=", "?<!"].any (·.toList.isPrefixOf cs) then refuse
  else if (← skipIf "?P<") || (← skipIf "?<") then
    let index ← openGroup
    groupName
    return .numbered index
  else if ← skipIf "?" then
    let (seen, flags) ← flagList ((← unread).length + 1) [] (← get).flags
    let c ← peek
    skip 1
    if c = ')' then
      require !seen.isEmpty
      return .flags flags
    else return .plain flags
  else return .numbered (← openGroup)

/-- Read whether a repetition is greedy, from the `?` that may follow it. -/
def greed : Read Bool := do
  let lazily ← skipIf "?"
  return lazily == (← get).flags.swapGreed

/-- Read the bounds of a repetition between braces, the opening one being next. -/
def bounds : Read (Nat × Option Nat) := do
  advanceToMore
  let low ← decimal
  let high ←
    if (← peek) = ',' then do
      advanceToMore
      if (← peek) = '\x7d' then pure none else pure (some (← decimal))
    else pure (some low)
  expect '\x7d'
  skipSpace
  require (high.all (low ≤ ·))
  return (low, high)

/-- Read the operator that repeats an expression. -/
def repetition (r : Regex) : Read Regex := do
  let c ← peek
  if c = '\x7b' then
    let (low, high) ← bounds
    let greedy ← greed
    return r.repeated greedy low high
  else
    skip 1
    let greedy ← greed
    if c = '?' then return r.optional greedy
    else if c = '*' then return r.star greedy
    else return .plus greedy r

/-- Read an expression that is one sign and no bracketed class. -/
def sign (engine : Engine) (c : Char) : Read Regex := do
  let flags := (← get).flags
  if c = '\\' then
    match ← escape engine with
    | .char c => oneChar c
    | .set s => return .set s
    | .look a => return .look a
  else
    skip 1
    if c = '.' then
      require flags.unicode
      if flags.dotAll then return .set .any
      else if flags.crlf then return .set (.compl (CharClass.ofList ['\n', '\r']))
      else return .set (.compl (.single '\n'))
    else if c = '^' then
      return .look (if flags.multiLine then .lineStart flags.crlf else .textStart)
    else if c = '$' then
      return .look (if flags.multiLine then .lineEnd flags.crlf else .textEnd)
    else oneChar c

/-- A part of a sequence: an expression, or flags, which cannot be repeated. -/
abbrev Part := Nested (Option Regex)

/-- The expression of parts given last first. -/
def sequence (parts : List Part) : Nested Regex :=
  .join (fun rs ↦ Regex.concat (rs.filterMap id)) parts.reverse

/-- Read alternatives up to the end of their group. The finished alternatives and the parts of the
present one are given last first. -/
def alternatives (engine : Engine) : Nat → List (Nested Regex) → List Part → Read (Nested Regex)
  | 0, _, _ => refuse
  | fuel + 1, finished, parts => do
    let present := sequence parts
    skipSpace
    match ← peek? with
    | none => return .join Regex.choice (present :: finished).reverse
    | some c =>
      if c = ')' then return .join Regex.choice (present :: finished).reverse
      else if c = '|' then
        skip 1
        alternatives engine fuel (present :: finished) []
      else if c = '?' ∨ c = '*' ∨ c = '+' ∨ c = '\x7b' then
        match parts with
        | ⟨some r, depth⟩ :: parts =>
          let r ← repetition r
          alternatives engine fuel finished (⟨some r, depth + 1⟩ :: parts)
        | _ => refuse
      else if c = '(' then
        advance
        let flags := (← get).flags
        match ← opening with
        | .flags flags =>
          modify ({ · with flags })
          alternatives engine fuel finished ({ item := none } :: parts)
        | .numbered index =>
          let r ← alternatives engine fuel [] []
          expect ')'
          modify ({ · with flags })
          alternatives engine fuel finished (r.wrap (fun r ↦ some (.group index r)) :: parts)
        | .plain inner =>
          modify fun p ↦ { p with flags := inner }
          let r ← alternatives engine fuel [] []
          expect ')'
          modify ({ · with flags })
          alternatives engine fuel finished (r.wrap some :: parts)
      else if c = '[' then
        let r ← bracketedSet engine
        alternatives engine fuel finished (⟨some r.item, r.depth⟩ :: parts)
      else
        let r ← sign engine c
        alternatives engine fuel finished ({ item := some r } :: parts)

end Reader

/-- The expression that a text writes, case counting or not. -/
def parse? (engine : Engine) (text : String) (ignoreCase : Bool) : Option Regex :=
  let start : Reader.Progress := { rest := text.toList, flags := { ignoreCase } }
  match (Reader.alternatives engine (2 * text.length + 2) [] []).run start with
  | some (r, p) => if p.rest.isEmpty && r.depth ≤ Reader.maxNesting then some r.item else none
  | none => none

/-- The expression of a pattern, in which case does not count, unless it is too large. -/
def Engine.compile? (engine : Engine) (source : String) : Option Regex :=
  if engine.fits source then parse? engine source true else none

end KeyHarvest.Regex
