import Mathlib.Data.List.Basic

/-!
# Paths and media types

The three pieces of the Go library that decide the object key and content type of a
webroot file: `path.Clean`, `filepath.Ext` and the parameter strip `Work` applies to
`mime.TypeByExtension`. `Clean` works on bytes; `/` and `.` never occur inside a
multi-byte UTF-8 sequence, so scanning characters gives the same result.
-/

namespace Pubstorm.Path

/-- The inner loop of a `..` element in `Clean`, on the reversed output buffer: drop
bytes back to the last separator, never below `dotdot`. -/
def dropElement (dotdot : Nat) : List Char → List Char
  | [] => []
  | c :: rest => if dotdot < rest.length ∧ c ≠ '/' then dropElement dotdot rest else rest

/-- The main loop of `Clean`. `out` is the output buffer reversed, `copying` is set while
the loop copies the bytes of a real element, `dotdot` is where `..` may backtrack to. -/
def cleanLoop (rooted : Bool) : Bool → Nat → List Char → List Char → List Char
  | _, _, out, [] => out
  | true, dotdot, out, c :: rest =>
    if c = '/' then cleanLoop rooted false dotdot out rest
    else cleanLoop rooted true dotdot (c :: out) rest
  | false, dotdot, out, '/' :: rest => cleanLoop rooted false dotdot out rest
  | false, _, out, ['.'] => out
  | false, dotdot, out, '.' :: '/' :: rest => cleanLoop rooted false dotdot out rest
  | false, dotdot, out, ['.', '.'] =>
    if dotdot < out.length then dropElement dotdot out
    else if rooted then out
    else '.' :: '.' :: (if out.length = 0 then out else '/' :: out)
  | false, dotdot, out, '.' :: '.' :: '/' :: rest =>
    if dotdot < out.length then cleanLoop rooted false dotdot (dropElement dotdot out) rest
    else if rooted then cleanLoop rooted false dotdot out rest
    else
      let out' := '.' :: '.' :: (if out.length = 0 then out else '/' :: out)
      cleanLoop rooted false out'.length out' rest
  | false, dotdot, out, c :: rest =>
    let sep := if rooted then out.length ≠ 1 else out.length ≠ 0
    cleanLoop rooted true dotdot (c :: if sep then '/' :: out else out) rest

/-- `path.Clean`: the shortest path equivalent to `path` by purely lexical processing.
Repeated separators and `.` elements go, a `..` element removes the element before it,
and a `..` that cannot backtrack is kept unless the path is rooted. -/
def clean (path : String) : String :=
  match path.data with
  | [] => "."
  | c :: _ =>
    let rooted := c = '/'
    let out := cleanLoop rooted false (if rooted then 1 else 0) (if rooted then ['/'] else []) path.data
    if out = [] then "." else String.mk out.reverse

example : clean "./a//b/../c/." = "a/c" := by decide
example : clean "../../x" = "../../x" := by decide
example : clean "/../x/" = "/x" := by decide

end Pubstorm.Path

namespace Pubstorm.Filepath

/-- The scan of `Ext` from the end of the path, with the bytes passed so far in `acc`. -/
def extLoop : List Char → List Char → List Char
  | [], _ => []
  | '/' :: _, _ => []
  | '.' :: _, acc => '.' :: acc
  | c :: rest, acc => extLoop rest (c :: acc)

/-- `filepath.Ext`: the suffix from the final dot of the last element, or "". -/
def ext (path : String) : String := String.mk (extLoop path.data.reverse [])

example : ext "css/site.min.css" = ".css" := by decide
example : ext "a.d/README" = "" := by decide

end Pubstorm.Filepath

namespace Pubstorm.Mime

/-- What `Work` keeps of `mime.TypeByExtension`: the media type before the first `;`. -/
def stripParams (contentType : String) : String :=
  String.mk (contentType.data.takeWhile (· ≠ ';'))

example : stripParams "text/html; charset=utf-8" = "text/html" := by decide

end Pubstorm.Mime
