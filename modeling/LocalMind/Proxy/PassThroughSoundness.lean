import LocalMind.Proxy.PassThrough

namespace LocalMind
set_option autoImplicit true
open StreamPassState

/-! Completion detection. -/

/-- Some event of the block is terminal. -/
def containsCompletion (block : Bytes) : Bool :=
  (Text.splitBlank (Utf8.decodeLossy block)).any fun raw =>
    isCompletionEvent (splitEvent (Utf8.encode raw)).1 (splitEvent (Utf8.encode raw)).2

/-- Whether completion was signaled on this stream, and the channel. -/
abbrev Signal := Bool × CompletionTx

def StreamPassState.signal (s : StreamPassState) : Signal :=
  (s.completionSignaled, s.completionTx)

def Signal.observe (sg : Signal) (block : Bytes) : Signal :=
  let d := detectAndSignalCompletion block sg.2
  (sg.1 || d.1, d.2)

end LocalMind
