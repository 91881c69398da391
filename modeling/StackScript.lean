import StackScript.Bytecode.Chunk
import StackScript.Bytecode.Codec
import StackScript.Bytecode.Listing
import StackScript.Bytecode.Op
import StackScript.Cbor.Item
import StackScript.Cbor.Read
import StackScript.Cli.Command
import StackScript.Cli.Flags
import StackScript.Cli.Input
import StackScript.Cli.Os
import StackScript.Cli.Repl
import StackScript.Cli.World
import StackScript.Compiler.Compile
import StackScript.Compiler.Diagnostic
import StackScript.Config
import StackScript.Embed.Host
import StackScript.Hash.Xxh3
import StackScript.Heap
import StackScript.Json
import StackScript.Lsp.Exchange
import StackScript.Lsp.Features
import StackScript.Lsp.Serve
import StackScript.Lsp.Server
import StackScript.Lsp.Wire
import StackScript.Machine.Basic
import StackScript.Machine.Fault
import StackScript.Machine.Program
import StackScript.Machine.Run
import StackScript.Main
import StackScript.Number.Read
import StackScript.Number.Shortest
import StackScript.Number.Text
import StackScript.Number.Width
import StackScript.Path
import StackScript.Proofs.Bytecode.Files
import StackScript.Proofs.Bytecode.Layout
import StackScript.Proofs.Bytecode.Listing
import StackScript.Proofs.Bytecode.Load
import StackScript.Proofs.Bytecode.Records
import StackScript.Proofs.Cbor.Floats
import StackScript.Proofs.Cbor.Roundtrip
import StackScript.Proofs.Compiler.Acceptance
import StackScript.Proofs.Compiler.AnyHeap
import StackScript.Proofs.Compiler.Blind
import StackScript.Proofs.Compiler.Constants
import StackScript.Proofs.Compiler.Correctness
import StackScript.Proofs.Compiler.Diagnostics
import StackScript.Proofs.Compiler.Emission
import StackScript.Proofs.Compiler.Eval
import StackScript.Proofs.Compiler.Evaluation
import StackScript.Proofs.Compiler.Grammar
import StackScript.Proofs.Compiler.Interning
import StackScript.Proofs.Compiler.Parse
import StackScript.Proofs.Compiler.Program
import StackScript.Proofs.Compiler.ProgramReports
import StackScript.Proofs.Compiler.Pulls
import StackScript.Proofs.Compiler.Recovery
import StackScript.Proofs.Compiler.Run
import StackScript.Proofs.Compiler.Sequence
import StackScript.Proofs.Compiler.Simulation
import StackScript.Proofs.Compiler.StackMap
import StackScript.Proofs.Compiler.StackSafety
import StackScript.Proofs.Heap.Calls
import StackScript.Proofs.Heap.Intern
import StackScript.Proofs.Lsp.Ranges
import StackScript.Proofs.Machine.Checked
import StackScript.Proofs.Machine.Duplicate
import StackScript.Proofs.Machine.Ending
import StackScript.Proofs.Machine.Faults
import StackScript.Proofs.Machine.Globals
import StackScript.Proofs.Machine.Limit
import StackScript.Proofs.Machine.Safety
import StackScript.Proofs.Machine.Straight
import StackScript.Proofs.Machine.Trace
import StackScript.Proofs.Machine.Twins
import StackScript.Proofs.Syntax.Join
import StackScript.Proofs.Syntax.Lexemes
import StackScript.Proofs.Syntax.Literals
import StackScript.Proofs.Syntax.Scan
import StackScript.Proofs.Table.Growth
import StackScript.Proofs.Table.Invariant
import StackScript.Proofs.Table.Probe
import StackScript.Proofs.Table.Refinement
import StackScript.Proofs.Table.Update
import StackScript.Proofs.Text.Utf8
import StackScript.Syntax.Scanner
import StackScript.Syntax.Token
import StackScript.Table
import StackScript.Text.Bytes
import StackScript.Text.Space
import StackScript.Toml.Document
import StackScript.Toml.Lexer
import StackScript.Toml.Scalar
import StackScript.Value
