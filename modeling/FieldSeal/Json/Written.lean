import FieldSeal.Json.Token

/-!
# JSON as it is written

The tokens of a text put together: a tree that keeps literals as they are written and members in
the order of the text, with repeated keys. A list of open containers takes the place of recursion,
so a text may be nested to any depth; `Assembly.step` takes in one token, and `Written.ofText?`
folds it over the tokens.
-/

set_option autoImplicit false

namespace FieldSeal.Json

/-- A JSON text as it is written. -/
inductive Written where
  | null
  | bool (value : Bool)
  | numeral (value : Numeral)
  | text (pieces : List Piece)
  | array (items : List Written)
  | object (members : List (List Piece × Written))
deriving Inhabited

/-- A container that is still open. What it holds so far is collected backwards; `member` waits
for the value of its key. -/
inductive Frame where
  | items (done : List Written)
  | members (done : List (List Piece × Written))
  | member (done : List (List Piece × Written)) (key : List Piece)

/-- What the next token may be. A container may close at once, but not after a comma. -/
inductive Expected where
  | value (mayClose : Bool)
  | key (mayClose : Bool)
  | colon (key : List Piece)
  | separator
  | nothing (whole : Written)

/-- The open containers, innermost first, and what may follow. -/
structure Assembly where
  frames : List Frame
  expected : Expected

namespace Assembly

/-- Puts a finished value where it belongs. -/
def complete (w : Written) : List Frame → Option Assembly
  | [] => some ⟨[], .nothing w⟩
  | .items done :: frames => some ⟨.items (w :: done) :: frames, .separator⟩
  | .member done key :: frames => some ⟨.members ((key, w) :: done) :: frames, .separator⟩
  | .members _ :: _ => none

/-- Closes the innermost container at a bracket. -/
def closeItems : List Frame → Option Assembly
  | .items done :: frames => complete (.array done.reverse) frames
  | _ => none

/-- Closes the innermost container at a brace. -/
def closeMembers : List Frame → Option Assembly
  | .members done :: frames => complete (.object done.reverse) frames
  | _ => none

def step (a : Assembly) (token : Token) : Option Assembly :=
  match a.expected, token with
  | .value _, .null => complete .null a.frames
  | .value _, .bool b => complete (.bool b) a.frames
  | .value _, .numeral n => complete (.numeral n) a.frames
  | .value _, .text pieces => complete (.text pieces) a.frames
  | .value _, .openBracket => some ⟨.items [] :: a.frames, .value true⟩
  | .value _, .openBrace => some ⟨.members [] :: a.frames, .key true⟩
  | .value true, .closeBracket => closeItems a.frames
  | .key _, .text pieces => some ⟨a.frames, .colon pieces⟩
  | .key true, .closeBrace => closeMembers a.frames
  | .colon key, .colon =>
    match a.frames with
    | .members done :: frames => some ⟨.member done key :: frames, .value false⟩
    | _ => none
  | .separator, .comma =>
    match a.frames with
    | .items done :: frames => some ⟨.items done :: frames, .value false⟩
    | .members done :: frames => some ⟨.members done :: frames, .key false⟩
    | _ => none
  | .separator, .closeBracket => closeItems a.frames
  | .separator, .closeBrace => closeMembers a.frames
  | _, _ => none

/-- The whole text, once its tokens are used up. -/
def finish (a : Assembly) : Option Written :=
  match a.expected with
  | .nothing w => some w
  | _ => none

end Assembly

/-- Reads a text by the grammar alone. -/
def Written.ofText? (text : String) : Option Written := do
  (← (← tokens? text).foldlM Assembly.step ⟨[], .value false⟩).finish

end FieldSeal.Json
