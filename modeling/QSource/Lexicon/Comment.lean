/-
**Comments and commands**, the forms that depend on where lines begin.

Main definitions:

* `QSource.commentLength?` — the length of a comment of each form;
* `QSource.commandLength?` — the length of a system command.
-/

import QSource.Text.Line
import QSource.Token.Kind

set_option relaxedAutoImplicit false
set_option autoImplicit false

namespace QSource

open Text

/-- The number of characters up to the end of the first line that is a closing marker, or up to the
end of the text if there is none. `fresh` says whether the text starts at the start of a line. -/
def throughClosingMarker (fresh : Bool) : List Char → Nat
  | [] => 0
  | c :: rest =>
    let line := firstLine (c :: rest)
    if fresh && isMarkerLine '\\' line then line.length
    else 1 + throughClosingMarker (c == '\n') rest

/-- The length of a comment at the start of `s`. A block opens with a marker line `/` and runs
through the next marker line `\`; a marker line `\` outside a block hides the rest of the text; a
`/` at the start of a line or behind a blank hides the rest of its line. -/
def commentLength? (form : CommentForm) (prev : Option Char) (s : List Char) : Option Nat :=
  match form with
  | .block =>
    if atLineStart prev && isMarkerLine '/' (firstLine s) then some (throughClosingMarker false s)
    else none
  | .final =>
    if atLineStart prev && isMarkerLine '\\' (firstLine s) then some s.length else none
  | .line =>
    if s.head? == some '/' && (atLineStart prev || prev.any isBlank) then some (firstLine s).length
    else none

/-- The length of a command at the start of a text: a line that opens with `\` and has something
other than a blank or a line end directly behind it. -/
def commandLength? (prev : Option Char) : List Char → Option Nat
  | '\\' :: next :: rest =>
    if atLineStart prev && !(isBlank next || next == '\r' || next == '\n') then
      some (firstLine ('\\' :: next :: rest)).length
    else
      none
  | _ => none

end QSource
