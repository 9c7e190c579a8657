import BisayaPlus.Main
import BisayaPlus.Run.Stable
import BisayaPlus.Proofs.Trail
import BisayaPlus.Proofs.Steps
import BisayaPlus.Proofs.StoreTyping
import BisayaPlus.Proofs.Scopes
import BisayaPlus.Proofs.ScopeStack
import BisayaPlus.Proofs.Padding
import BisayaPlus.Proofs.EmptyScope
import BisayaPlus.Proofs.Closure
import BisayaPlus.Proofs.Shadowing
import BisayaPlus.Proofs.Discipline
import BisayaPlus.Proofs.StaticSoundness
import BisayaPlus.Proofs.Grammar
import BisayaPlus.Proofs.ParseSound
import BisayaPlus.Proofs.ParseComplete
import BisayaPlus.Proofs.Print
import BisayaPlus.Proofs.RoundTrip
import BisayaPlus.Proofs.CountingLoop
import BisayaPlus.Proofs.Lexicon
import BisayaPlus.Proofs.Slices
import BisayaPlus.Proofs.Positions
import BisayaPlus.Proofs.Rules
import BisayaPlus.Proofs.Lines
import BisayaPlus.Proofs.Rescan
import BisayaPlus.Proofs.Walk
import BisayaPlus.Proofs.Brackets
import BisayaPlus.Parse.Cursor
import BisayaPlus.Proofs.CursorRuns
import BisayaPlus.Proofs.ScopeChain
import BisayaPlus.Proofs.Faults
import BisayaPlus.Proofs.Shapes
import BisayaPlus.Proofs.Arithmetic
import BisayaPlus.Proofs.Dialogue
import BisayaPlus.Proofs.WriteFailure
import BisayaPlus.Proofs.InputAccounting
import BisayaPlus.Proofs.ErrorTokens
import BisayaPlus.Proofs.TwoConsoles
import BisayaPlus.Proofs.ErrorCount
import BisayaPlus.Token.Scanner
import BisayaPlus.Proofs.Numerals
import BisayaPlus.Proofs.ScannerSteps
import BisayaPlus.Proofs.ScannerRuns
import BisayaPlus.Proofs.Spelling
import BisayaPlus.Proofs.LongestMatch
import BisayaPlus.Proofs.Locality
import BisayaPlus.Proofs.Counting
import BisayaPlus.Proofs.InputOrder
import BisayaPlus.Proofs.Rounding
import BisayaPlus.Proofs.Doubles
import BisayaPlus.Proofs.ShortestDigits
import BisayaPlus.Proofs.Decimals
import BisayaPlus.Proofs.InputDisplay
import BisayaPlus.Proofs.ShortCircuit
import BisayaPlus.Proofs.FirstBoundary
