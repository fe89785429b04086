/-!
# Paths

A path is the parts of a name between its slashes. Parts that are empty or stay in place do not
count. What follows the last point of the last part is the suffix, if something stands on both sides
of the point.
-/

namespace Markwright

/-- The pieces between the characters `c`. -/
def splitAt (c : Char) : List Char → List (List Char)
  | [] => [[]]
  | d :: rest =>
    if d = c then [] :: splitAt c rest
    else
      match splitAt c rest with
      | piece :: pieces => (d :: piece) :: pieces
      | [] => [[d]]

/-- A path as it was written, but for dots and slashes that say nothing. -/
structure Path where
  /-- The slashes that an absolute path begins with: one, or exactly two. -/
  root : String
  parts : List String
deriving DecidableEq

namespace Path

/-- Reads a path. Three slashes or more at the front count as one. -/
def ofString (s : String) : Path where
  root :=
    match s.toList with
    | ['/', '/'] => "//"
    | '/' :: '/' :: c :: _ => if c = '/' then "/" else "//"
    | '/' :: _ => "/"
    | _ => ""
  parts := ((splitAt '/' s.toList).filter fun part => part != [] && part != ['.']).map String.ofList

/-- The path as messages give it. The place where one is has a name of its own. -/
def text (p : Path) : String :=
  if p.root = "" ∧ p.parts = [] then "." else p.root ++ "/".intercalate p.parts

/-- The suffix of a file name with its point, or nothing. -/
def suffixOf (name : String) : List Char :=
  let suffix := name.toList.reverse.takeWhile (· != '.')
  let before := name.toList.reverse.drop (suffix.length + 1)
  if suffix.isEmpty || before.isEmpty then [] else '.' :: suffix.reverse

/-- What follows the last dot of the last part, the dot with it. -/
def suffix (p : Path) : List Char :=
  (p.parts.getLast?.map suffixOf).getD []

/-- The parts of a path after each step back was taken, which goes no further than a root. The parts
so far come with the last one first. -/
def stepBack (rooted : Bool) (before : List String) : List String → List String
  | [] => before.reverse
  | part :: rest =>
    if part = ".." then
      match before with
      | [] => stepBack rooted (if rooted then [] else [".."]) rest
      | last :: earlier =>
        if last = ".." then stepBack rooted (".." :: before) rest else stepBack rooted earlier rest
    else stepBack rooted (part :: before) rest

/-- The shortest path that leads to the same place when no part is a link. -/
def straight (p : Path) : Path :=
  ⟨p.root, stepBack (p.root != "") [] p.parts⟩

/-- The path seen from the root, for a path that starts in the directory of the given name. -/
def absolute (directory : String) (p : Path) : String :=
  if p.root != "" ∨ p.parts = [] then if p.root = "" then directory else p.text
  else directory ++ "/" ++ p.text

end Path

end Markwright
