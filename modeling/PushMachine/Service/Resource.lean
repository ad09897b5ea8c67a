/-!
# Resources

What a service answers for, each under one path and one method.  The target of a request may write its path in other
ways: after an authority, with a query or a fragment behind it, with characters as percent escapes, with segments that
lead nowhere or back, and with slashes at its end, which send the request on to the path without them.
-/
namespace PushMachine
namespace Service

inductive Resource where
  | greeting
  | health
  | run
  | validate
  deriving DecidableEq, Repr

def Resource.all : List Resource := [.greeting, .health, .run, .validate]

def Resource.path : Resource → String
  | .greeting => "/"
  | .health   => "/health"
  | .run      => "/api/v1/run"
  | .validate => "/api/v1/options/validate"

def Resource.method : Resource → String
  | .greeting | .health => "GET"
  | .run | .validate    => "POST"

/-! ## Targets -/

/-- The path in a target, from its first slash on: without the authority that two slashes announce, and without the
query and the fragment. -/
def pathOfTarget (target : List Char) : List Char :=
  let cs := target.takeWhile fun c => c != '?' && c != '#'
  match cs with
  | '/' :: '/' :: rest => rest.dropWhile (· != '/')
  | _                  => cs

/-- Split at every slash; `segment` is the segment so far, last character first. -/
def segmentsFrom (segment : List Char) : List Char → List (List Char)
  | []        => [segment.reverse]
  | '/' :: cs => segment.reverse :: segmentsFrom [] cs
  | c :: cs   => segmentsFrom (c :: segment) cs

/-- Walk a segment from the segments before it, last one first: a dot leads nowhere and two dots lead back. -/
def walk (before : List (List Char)) (segment : List Char) : List (List Char) :=
  if segment = ['.'] then before
  else if segment = ['.', '.'] then before.tail
  else segment :: before

/-- The segments of a path, with those that lead nowhere or back taken. -/
def segments (path : List Char) : List (List Char) := ((segmentsFrom [] path).foldl walk []).reverse

def hexValue? (c : Char) : Option Nat :=
  if c.isDigit then some (c.toNat - 0x30)
  else if 'a' ≤ c.toLower ∧ c.toLower ≤ 'f' then some (c.toLower.toNat - 0x57)
  else none

/-- Read percent escapes, a byte each.  Only paths in ASCII lead to a resource, so a byte can stand for a character. -/
def unescape : List Char → List Char
  | '%' :: a :: b :: cs =>
    match hexValue? a, hexValue? b with
    | some x, some y => Char.ofNat (16 * x + y) :: unescape cs
    | _,      _      => '%' :: unescape (a :: b :: cs)
  | c :: cs             => c :: unescape cs
  | []                  => []

/-- The path that a target asks for: it starts with one slash. -/
def targetPath (target : String) : List Char :=
  let relative := (pathOfTarget target.toList).dropWhile (· == '/')
  '/' :: unescape (['/'].intercalate (segments relative))

def Resource.ofPath? (path : List Char) : Option Resource := Resource.all.find? fun r => r.path.toList == path

/-- **The resource that a target leads to.** -/
def Resource.ofTarget? (target : String) : Option Resource :=
  let path := targetPath target
  match Resource.ofPath? path with
  | some r => some r
  | none   => Resource.ofPath? (path.reverse.dropWhile (· == '/')).reverse

end Service
end PushMachine
