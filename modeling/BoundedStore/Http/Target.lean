/-!
# Request targets

Where a request goes. A target is a path, behind which a query or a fragment may stand, or the
same behind a scheme and the name of a host (`http://host/path?query`). It may also name no path at
all: a host alone, or the server as a whole (`*`). Nothing is decoded, so a path is the characters
that were sent.
-/

namespace BoundedStore

namespace Target

/-- Whether a character ends a path. -/
def endsPath (c : Char) : Bool :=
  c = '?' || c = '#'

/-- The text behind the scheme, if there is one. -/
def afterScheme? : List Char → Option (List Char)
  | [] => none
  | ':' :: '/' :: '/' :: rest => some rest
  | _ :: rest => afterScheme? rest

/-- The text from the end of a host's name on. -/
def afterHost (cs : List Char) : List Char :=
  cs.dropWhile fun c => c ≠ '/' && !endsPath c

/-- The path of a target, empty when it names none. -/
def path (target : List Char) : List Char :=
  match target with
  | '/' :: _ => target.takeWhile fun c => !endsPath c
  | _ =>
    match afterScheme? target with
    | some rest => (afterHost rest).takeWhile fun c => !endsPath c
    | none => []

end Target

end BoundedStore
