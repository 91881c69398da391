import StackScript.Lsp.Server

/-! # A scripted exchange

A client that writes messages one at a time and, after each, waits for a number of messages
from the server. It sees the messages the server has sent, oldest first, up to the number it
waits for; the others stay for later steps, and what is left when the input is closed comes
last. Once the connection has ended, a message is not written at all; only the one right after
a message that was not waited on still goes out (the client does not yet know), and sees
nothing.
-/

namespace StackScript

namespace Lsp

/-- What the client saw at a step. -/
inductive Seen where
  | received (messages : List Json)
  | skipped

/-- The state of an exchange: the server, the messages not yet seen, and whether the last
step wrote a message without waiting. -/
structure Exchange where
  server : Server := {}
  queue : List Json := []
  unwaited : Bool := false

namespace Exchange

/-- One step: writes a message and waits for `expect` messages. -/
def step (x : Exchange) (message : Bytes) (expect : Nat) : Exchange × Seen :=
  if x.server.closed then
    if x.unwaited then
      ({ x with queue := x.queue.drop expect, unwaited := false }, .received (x.queue.take expect))
    else (x, .skipped)
  else
    let (server, sent) := x.server.feed message false
    let queue := x.queue ++ sent
    ({ server, queue := queue.drop expect, unwaited := expect == 0 }, .received (queue.take expect))

/-- Runs the steps, then closes the input; answers what each step saw and what came after. -/
def run (x : Exchange) : List (Bytes × Nat) → List Seen × List Json
  | [] => ([], x.queue ++ (x.server.feed [] true).2)
  | (message, expect) :: rest =>
    let (x, seen) := x.step message expect
    let (seens, trailing) := run x rest
    (seen :: seens, trailing)

end Exchange

end Lsp

end StackScript
