import MicroLisp.Interner
import MicroLisp.Main
import MicroLisp.Proofs.Cursor.StringLiteral
import MicroLisp.Proofs.Interner.Program
import MicroLisp.Proofs.Interner.Bijection
import MicroLisp.Proofs.Lexer.Composition
import MicroLisp.Proofs.Lexer.FlatScan
import MicroLisp.Proofs.Lexer.Grammar
import MicroLisp.Proofs.Lexer.LineNumber
import MicroLisp.Proofs.Lexer.RoundTrip
import MicroLisp.Proofs.Input
import MicroLisp.Proofs.Command.Report
import MicroLisp.Proofs.Json.Text
import MicroLisp.Proofs.Binary64.Midpoint
import MicroLisp.Proofs.Binary64.Precision
import MicroLisp.Proofs.Json.Number
import MicroLisp.Proofs.Json.Document
import MicroLisp.Proofs.Token.Json
import MicroLisp.Proofs.Binary64.Error
import MicroLisp.Proofs.Json.Scale
import MicroLisp.Proofs.Json.Double
import MicroLisp.Proofs.Command.Framing
import MicroLisp.Proofs.Command.Lines
import MicroLisp.Proofs.Grammar.Remarks
import MicroLisp.Proofs.Lexer.Events
import MicroLisp.Proofs.Command.Settings
import MicroLisp.Proofs.Command.Log
import MicroLisp.Proofs.Lexer.Words
import MicroLisp.Proofs.Cursor.Word
import MicroLisp.Proofs.Binary64.Rational
import MicroLisp.Proofs.Binary64.TiesToEven
import MicroLisp.Proofs.Cursor.Turns
import MicroLisp.Proofs.Lexer.Progress
import MicroLisp.Proofs.Word.Value
import MicroLisp.Proofs.Lexer.CarriageReturn
import MicroLisp.Proofs.Lexer.DumpedNumber
import MicroLisp.Proofs.Text.Handout
import MicroLisp.Proofs.Text.Feeder
import MicroLisp.Proofs.Cursor.End
import MicroLisp.Proofs.Json.Lexeme
import MicroLisp.Proofs.Json.Container
import MicroLisp.Proofs.Token.Layout
