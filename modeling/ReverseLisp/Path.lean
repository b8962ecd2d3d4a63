/-!
# Paths and trees of files

File names as slash-separated texts, and a tree of files held in memory. A path forgets empty
components and single dots, and keeps double dots, since what they mean depends on the tree.
-/

namespace ReverseLisp

/-- The slashes that a path starts with, and its components. -/
structure Path where
  anchor : String
  components : List String
deriving DecidableEq, Inhabited

namespace Path

/-- The path of a text. Exactly two slashes at the start are kept; any other number is one. -/
def ofText (text : String) : Path :=
  let cs := text.toList
  let slashes := (cs.takeWhile (· == '/')).length
  { anchor := if slashes = 0 then "" else if slashes = 2 then "//" else "/"
    components := (text.splitOn "/").filter fun c ↦ c ≠ "" ∧ c ≠ "." }

/-- The text of a path. The working directory is a dot. -/
def text (p : Path) : String :=
  if p.anchor = "" ∧ p.components = [] then "." else p.anchor ++ "/".intercalate p.components

/-- The directory that holds the last component. -/
def parent (p : Path) : Path := { p with components := p.components.dropLast }

/-- A file in a directory. -/
def child (p : Path) (name : String) : Path := { p with components := p.components ++ [name] }

/-- Whether the path is followed from the root. -/
def isAbsolute (p : Path) : Bool := p.anchor != ""

end Path

/-- Files and directories by their components from the root, and the directory from which other
paths are followed. Every directory on the way to a file or directory exists too. -/
structure FileTree where
  files : List (List String × String)
  directories : List (List String)
  working : List String

namespace FileTree

/-- Whether a directory is found at a place. -/
def hasDirectory (t : FileTree) (place : List String) : Bool :=
  place.isEmpty || t.directories.any (place.isPrefixOf ·) || place.isPrefixOf t.working ||
    t.files.any fun f ↦ place.length < f.1.length && place.isPrefixOf f.1

/-- The place to which components lead; only directories can be walked through. -/
def follow (t : FileTree) (place : List String) : List String → Option (List String)
  | [] => some place
  | c :: cs =>
    if t.hasDirectory place then t.follow (if c = ".." then place.dropLast else place ++ [c]) cs
    else none

/-- The place of a path. -/
def place? (t : FileTree) (p : Path) : Option (List String) :=
  t.follow (if p.isAbsolute then [] else t.working) p.components

/-- Whether a path leads to a directory. -/
def isDirectory (t : FileTree) (p : Path) : Bool := (t.place? p).any t.hasDirectory

/-- The text of the file to which a path leads. -/
def text? (t : FileTree) (p : Path) : Option String := (t.place? p).bind (t.files.lookup ·)

end FileTree

end ReverseLisp
