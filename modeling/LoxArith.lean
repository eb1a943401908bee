import LoxArith.Main
import LoxArith.Proofs.Emission
import LoxArith.Proofs.Parser.Reading
import LoxArith.Proofs.Scanner
import LoxArith.Proofs.Parser.Soundness
import LoxArith.Proofs.Parser.Completeness
import LoxArith.Proofs.Language
import LoxArith.Proofs.Boundaries
import LoxArith.Proofs.Code
import LoxArith.Proofs.Execution
import LoxArith.Proofs.Capacity
import LoxArith.Proofs.Faults
import LoxArith.Proofs.Token.Place
import LoxArith.Proofs.Lines
import LoxArith.Proofs.Parser.Diagnosis
import LoxArith.Proofs.Machine.Lockstep
import LoxArith.Proofs.Trace
import LoxArith.Proofs.Legible
import LoxArith.Proofs.Layout
import LoxArith.Proofs.Dump
import LoxArith.Proofs.Machine.Reuse
import LoxArith.Proofs.Machine.Registers
import LoxArith.Proofs.Machine.Safety
import LoxArith.Proofs.Parser.Recursion
import LoxArith.Proofs.Parser.Effort
import LoxArith.Proofs.CommandLine.Flags
import LoxArith.Proofs.CommandLine.Run
import LoxArith.Proofs.Chunk.Constants
import LoxArith.Proofs.Chunk.Encoding
import LoxArith.Proofs.CommandLine.Printed
import LoxArith.Proofs.CommandLine.Session
import LoxArith.Proofs.FileTree
import LoxArith.Proofs.SavedSettings
