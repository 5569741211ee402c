import Dwo.Main
import Dwo.Node.Equality
import Dwo.Proofs.Script.Rendering
import Dwo.Proofs.Script.Rules
import Dwo.Proofs.Statement.Pieces
import Dwo.Token.Scanner
import Dwo.Proofs.Script.Rejection
import Dwo.Proofs.Token.Tiling
import Dwo.Proofs.Statement.Relocation
import Dwo.Proofs.Script.Relocation
import Dwo.Proofs.Session.Layout
import Dwo.Proofs.Session.Phases
import Dwo.Proofs.Script.Origins
import Dwo.Proofs.Token.Relexing
import Dwo.Proofs.Session.TokenStructure
import Dwo.Proofs.Statement.Returned
import Dwo.Proofs.Session.Agreement
import Dwo.Proofs.Session.Viability
import Dwo.Proofs.Session.Concatenation
import Dwo.Proofs.Session.Listing
import Dwo.Proofs.Token.Positions
import Dwo.Proofs.Script.Names
import Dwo.Proofs.Session.Declarations
import Dwo.Proofs.Session.Values
import Dwo.Proofs.Command.Files
import Dwo.Proofs.Command.Effects
import Dwo.Proofs.Token.Quoted
import Dwo.Proofs.Session.Warnings
import Dwo.Proofs.Token.Order
import Dwo.Proofs.Statement.Nesting
import Dwo.Proofs.Session.Notes
import Dwo.Proofs.Session.Termination
import Dwo.Proofs.Session.Numerals
import Dwo.Proofs.Session.StringLiterals
import Dwo.Proofs.Command.Extension
