import LocalMind.Proxy.PassThroughSoundness

namespace LocalMind
set_option autoImplicit true
open StreamPassState

/-- The framer has nothing to release and is as its last call left it. -/
def FramingState.Idle (f : FramingState) : Prop := f.takeFramed = (.nothing, f)

/-- The items of a backend stream: its chunks, and the read error that may end it. -/
def streamItems (chunks : List Bytes) (failure : Option String) : List Item :=
  chunks.map .ok ++ failure.toList.map .error

end LocalMind
