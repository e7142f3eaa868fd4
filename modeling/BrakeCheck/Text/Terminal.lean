/-!
# Texts without control sequences

A text that is printed for a user may hold characters and sequences of characters that make a
terminal do something instead of showing them: an escape character followed by a command, by a
control sequence, or by a string that a terminal takes in.  They are left out; line breaks, tabs
and the like are kept.

A line break or tab inside a control sequence is kept as well, and what follows it is shown up to
the next control character; only then the sequence goes on.

## Main definitions

* `Sequence` — the place of a reader inside or outside of sequences.
* `Sequence.next`, `Sequence.shows` — where a character leads, and whether it is shown.
* `withoutControls` — a text without what a terminal would not show.
-/

namespace BrakeCheck.Text

/-- The place of a reader of characters. -/
inductive Sequence where
  /-- Outside of sequences. -/
  | ground
  /-- After an escape character. -/
  | escape
  /-- After an escape character and characters that announce one more. -/
  | escapeTail
  /-- Inside a control sequence, which ends with a letter or the like. -/
  | control
  /-- At the start of a device string. -/
  | deviceStart
  /-- Among the parameters of a device string. -/
  | deviceParameters
  /-- Behind the parameters of a device string. -/
  | deviceTail
  /-- Inside the body of a device string. -/
  | deviceBody
  /-- Inside a command to the operating system. -/
  | command
  /-- Inside a message or a string without a meaning. -/
  | message
  deriving DecidableEq

/-- Whether a character is a control character that only moves on. -/
def isSpacing (c : Char) : Bool := c = '\t' || c = '\n' || c = '\x0c' || c = '\r'

/-- Whether `lo ≤ c ≤ hi`. -/
def isBetween (lo hi c : Char) : Bool := lo ≤ c && c ≤ hi

/-- Whether the terminator of strings is among the continuation bytes of a character; it is a byte
whose low six bits are twenty-eight. -/
def holdsTerminator (c : Char) : Bool :=
  let n := c.toNat
  (0x80 ≤ n && n % 64 = 28) || (0x800 ≤ n && n / 64 % 64 = 28)
    || (0x10000 ≤ n && n / 4096 % 64 = 28)

namespace Sequence

/-- Where the characters after an escape character lead. -/
def afterEscape (c : Char) : Option Sequence :=
  if c = '[' then some control
  else if c = ']' then some command
  else if c = 'P' then some deviceStart
  else if c = 'X' || c = '^' || c = '_' then some message
  else if isBetween ' ' '/' c then some escapeTail
  else if isBetween '0' '~' c then some ground
  else none

/-- Where the characters in front of the body of a device string lead: `late` tells that
parameters have been closed, and `marked` that a mark may not come any more. -/
def inDeviceHead (late marked : Bool) (c : Char) : Option Sequence :=
  if isBetween ' ' '/' c then some deviceTail
  else if isBetween '@' '~' c then some deviceBody
  else if late && isBetween '0' '?' c then some deviceBody
  else if marked && isBetween '<' '?' c then some deviceBody
  else if isBetween '0' '?' c then some deviceParameters
  else none

/-- The place to which a character leads; without one, the reader stays. -/
def next (s : Sequence) (c : Char) : Option Sequence :=
  if c = '\x18' || c = '\x1a' then some ground
  else if c = '\x1b' then some escape
  else match s with
    | ground => if isBetween '\x00' '\x7f' c then none else some ground
    | escape => afterEscape c
    | escapeTail => if isBetween '0' '~' c then some ground else none
    | control => if isBetween '@' '~' c then some ground else none
    | deviceStart => inDeviceHead false false c
    | deviceParameters => inDeviceHead false true c
    | deviceTail => inDeviceHead true true c
    | deviceBody => if holdsTerminator c then some ground else none
    | command => if c = '\x07' then some ground else none
    | message => if holdsTerminator c then some ground else none

/-- Whether a character is shown at a place. -/
def shows (s : Sequence) (c : Char) : Bool :=
  match s with
  | ground => isSpacing c || (' ' ≤ c && c != '\x7f')
  | escape | escapeTail | control => isSpacing c
  | _ => false

end Sequence

/-- What is shown of a text by a reader at a place.  A reader that is `showing` takes the text as
if it stood outside of sequences, until a character is not shown there. -/
def shownFrom (place : Sequence) (showing : Bool) : List Char → List Char
  | [] => []
  | c :: cs =>
    let showsHere := if showing then Sequence.shows .ground c else place.shows c
    let place := if showing then (Sequence.next .ground c).getD place else place
    if showsHere then c :: shownFrom ((Sequence.next .ground c).getD place) true cs
    else shownFrom ((place.next c).getD place) false cs

/-- A text without what a terminal would not show. -/
def withoutControls (cs : List Char) : List Char := shownFrom .ground false cs

end BrakeCheck.Text
