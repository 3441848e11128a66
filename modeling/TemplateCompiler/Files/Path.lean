import TemplateCompiler.Text.Bytes

/-!
# Paths

A path is a list of components with slashes between them, and it is rooted if
it starts with one. Everything here works on the text of a path and never
looks at files. `Path.clean` gives the shortest path of the same meaning, and
joining and splitting paths clean what they return.
-/

namespace TemplateCompiler

namespace Path

def isRooted (path : Bytes) : Bool := path.head? == some Byte.slash

/-- The components of a path. Empty ones and single dots mean nothing. -/
def components (path : Bytes) : List Bytes :=
  (Bytes.splitOn Byte.slash path).filter fun c => !c.isEmpty && c != [Byte.dot]

def parent : Bytes := [Byte.dot, Byte.dot]

/-- Adds a component to the components before it, the last of which comes
first. A parent component takes the one before it away. At the root there is
nothing to go up to. -/
def step (rooted : Bool) (stack : List Bytes) (c : Bytes) : List Bytes :=
  if c == parent then
    match stack with
    | [] => if rooted then [] else [c]
    | last :: before => if last == parent then c :: stack else before
  else c :: stack

/-- The shortest path of the same meaning. -/
def clean (path : Bytes) : Bytes :=
  let kept := ((components path).foldl (step (isRooted path)) []).reverse
  let text := Bytes.join [Byte.slash] kept
  if isRooted path then Byte.slash :: text
  else if text.isEmpty then [Byte.dot]
  else text

/-- One path after the other. Empty ones are left out, and nothing but empty
ones is the empty path. -/
def join (paths : List Bytes) : Bytes :=
  match paths.filter (!·.isEmpty) with
  | [] => []
  | kept => clean (Bytes.join [Byte.slash] kept)

def folder (path : Bytes) : Bytes := clean (Bytes.trimEnd (· != Byte.slash) path)

/-- The last component of a path, slashes at its end apart. -/
def name (path : Bytes) : Bytes :=
  match Bytes.trimEnd (· == Byte.slash) path with
  | [] => if path.isEmpty then [Byte.dot] else [Byte.slash]
  | rest => (Bytes.splitOn Byte.slash rest).getLastD []

/-- The last dot of the last component and what follows it, or nothing if it
has no dot. -/
def extension (path : Bytes) : Bytes :=
  let last := (Bytes.splitOn Byte.slash path).getLastD []
  match last.reverse.span (· != Byte.dot) with
  | (_, []) => []
  | (back, dot :: _) => dot :: back.reverse

/-- The last component of a path without its extension. -/
def stem (path : Bytes) : Bytes :=
  let last := name path
  last.take (last.length - (extension last).length)

end Path

end TemplateCompiler
