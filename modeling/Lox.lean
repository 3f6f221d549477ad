import Lox.Main
import Lox.Proofs.Grammar.Yield
import Lox.Proofs.Machine.ControlState
import Lox.Proofs.Machine.Encapsulation
import Lox.Proofs.Machine.ForLoop
import Lox.Proofs.Machine.Operators
import Lox.Proofs.Machine.Placement
import Lox.Proofs.Token.Fits
import Lox.Proofs.Token.Tiling
import Lox.Proofs.Token.LineBreak
import Lox.Proofs.Machine.Adequacy
import Lox.Proofs.Layout.Parsing
import Lox.Proofs.Layout.Running
import Lox.Proofs.Layout.Sessions
import Lox.Proofs.Layout.Pieces
import Lox.Proofs.Token.Respacing
import Lox.Proofs.Machine.Console
import Lox.Proofs.Machine.Printing
import Lox.Proofs.Command.Script
import Lox.Proofs.Command.Prompt
import Lox.Proofs.Grammar.EarliestFault
import Lox.Proofs.Grammar.Counters
import Lox.Proofs.Grammar.EndOfTokens
import Lox.Proofs.Machine.Resolution
import Lox.Proofs.Machine.FunctionIdentity
import Lox.Proofs.Machine.InputLines
import Lox.Proofs.Tree.Rendering
