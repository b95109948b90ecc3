/-!
# Paths of files

A path is a text whose pieces are divided by slashes. The text is kept as it was given, for it is
what reports show; what a path means is its list of components. An empty piece is no component, nor
is a dot unless the path begins with it, so `a//b/.` and `a/b` have the same components and `./a`
and `a` do not.
-/

namespace KeyHarvest

/-- A path, as its text. -/
structure Path where
  /-- The text of the path. -/
  text : String
  deriving DecidableEq, Repr

namespace Path

/-- The pieces of a path, empty ones and dots among them. -/
def pieces (p : Path) : List String :=
  (p.text.toList.splitOn '/').map String.ofList

/-- Whether a path begins at the top of the file system. -/
def isAbsolute (p : Path) : Bool :=
  p.text.toList.head? == some '/'

/-- Where a path leads from: an absolute one from the top, any other from where one stands. -/
def origin (p : Path) (here : List String) : List String :=
  if p.isAbsolute then [] else here

/-- A step of a path. -/
inductive Component where
  /-- The top of the file system. -/
  | top
  /-- The leading dot. -/
  | current
  /-- Two dots. -/
  | parent
  /-- A name. -/
  | name (s : String)
  deriving DecidableEq, Repr

/-- The component of a piece after the first one, if it is one. -/
def component? (piece : String) : Option Component :=
  if piece = "" ∨ piece = "." then none
  else if piece = ".." then some .parent
  else some (.name piece)

/-- The components of a path. -/
def components (p : Path) : List Component :=
  match p.pieces with
  | [] => []
  | first :: rest =>
    let start :=
      if p.isAbsolute then [Component.top]
      else if first = "." then [.current]
      else (component? first).toList
    start ++ rest.filterMap component?

/-- A text for a component such that texts are ordered as components are: the top first, then the
dot, then the parent, then names. -/
def Component.sortText : Component → String
  | .top => "0"
  | .current => "1"
  | .parent => "2"
  | .name s => "3" ++ s

/-- The key by which paths are sorted; paths with the same components have the same key. -/
def sortKey (p : Path) : List String :=
  p.components.map Component.sortText

/-- Whether two paths have the same components. -/
def sameAs (p q : Path) : Bool :=
  p.components == q.components

/-- Whether the components of a path begin with those of another. -/
def startsWith (p start : Path) : Bool :=
  start.components.isPrefixOf p.components

/-- The path that a second path leads to from a first one. An absolute second path stands alone. -/
def join (p q : Path) : Path :=
  if q.isAbsolute then q
  else if p.text = "" ∨ p.text.toList.getLast? = some '/' then ⟨p.text ++ q.text⟩
  else ⟨p.text ++ "/" ++ q.text⟩

/-- The path of an entry of a directory. -/
def child (p : Path) (name : String) : Path :=
  p.join ⟨name⟩

/-- Drop the pieces at the end that are no components. -/
def trimPieces : List String → List String
  | [] => []
  | piece :: rest =>
    match dropIdle rest with
    | [] => if piece = "" then [] else [piece]
    | kept => piece :: kept
where
  /-- Drop the pieces at the end that are no components, the first piece being elsewhere. -/
  dropIdle : List String → List String
    | [] => []
    | piece :: rest =>
      match dropIdle rest with
      | [] => if piece = "" ∨ piece = "." then [] else [piece]
      | kept => piece :: kept

/-- The path without its last component; the empty path and the top have none. -/
def parent? (p : Path) : Option Path :=
  match trimPieces p.pieces with
  | [] => none
  | kept =>
    match trimPieces kept.dropLast with
    | [] => some ⟨if p.isAbsolute then "/" else ""⟩
    | above => some ⟨"/".intercalate above⟩

/-- The path without its leading dot, unless it does not begin with one. -/
def withoutDot (p : Path) : Path :=
  match p.pieces with
  | "." :: rest =>
    let rest := rest.dropWhile fun piece ↦ piece == "" || piece == "."
    ⟨"/".intercalate (trimPieces rest)⟩
  | _ => p

/-- The name of the last component, if that is a name. -/
def fileName? (p : Path) : Option String :=
  match p.components.getLast? with
  | some (.name s) => some s
  | _ => none

/-- What follows the last dot of a file name; a dot at its start begins no extension. -/
def extension? (p : Path) : Option String := do
  let name ← p.fileName?
  let cs := name.toList.reverse
  let back := cs.takeWhile (· != '.')
  match cs.drop back.length with
  | '.' :: _ :: _ => some (String.ofList back.reverse)
  | _ => none

end Path

end KeyHarvest
