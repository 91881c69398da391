import StackScript.Lsp.Server
import StackScript.Cli.Os

/-! # Serving on the standard streams

The server reads the standard input a line at a time, and a body as many bytes at a time as it
still needs, and writes each message it sends, in a frame, to the standard output, until the
connection ends or the input does.
-/

namespace StackScript

namespace Lsp

section Serve

variable {m : Type → Type} [Monad m]

/-- Writes messages in frames to the standard output. -/
def send (os : Cli.Os m) (sent : List Json) : m Unit :=
  if sent.isEmpty then pure () else os.out (sent.map frame).flatten

/-- Serves on the system's streams, reading at most `fuel` pieces of input. -/
def serve (os : Cli.Os m) : Nat → Server → m Unit
  | 0, _ => pure ()
  | fuel + 1, s => do
    let piece ← match s.missing with
      | some n => os.bytes n
      | none => do
        match ← os.line with
        | some (raw, ended) => pure (some (if ended then raw ++ [10] else raw))
        | none => pure none
    match piece with
    | none => send os (s.feed [] true).2
    | some piece =>
      let (s, sent) := s.feed piece false
      send os sent
      if !s.closed then serve os fuel s

end Serve

end Lsp

end StackScript
