import Keyset.Json.Reader
import Keyset.Json.Request
import Keyset.Proofs.Calendar.Order
import Keyset.Proofs.Calendar.Timestamp
import Keyset.Proofs.Decimal.Nearest
import Keyset.Proofs.Decimal.Rounding
import Keyset.Proofs.Decimal.Shortest
import Keyset.Proofs.Json.Encoding
import Keyset.Proofs.Json.Integers
import Keyset.Proofs.Json.NullCursors
import Keyset.Proofs.Json.Operators
import Keyset.Proofs.Json.PageEncoding
import Keyset.Proofs.Json.Query
import Keyset.Proofs.Json.Request
import Keyset.Proofs.Session.Faults
import Keyset.Proofs.Session.Release
import Keyset.Proofs.Sql.Algebra
import Keyset.Proofs.Sql.Backslash
import Keyset.Proofs.Sql.ClauseOrder
import Keyset.Proofs.Sql.Columns
import Keyset.Proofs.Sql.Composition
import Keyset.Proofs.Sql.Conditions
import Keyset.Proofs.Sql.Formula
import Keyset.Proofs.Sql.Grammar
import Keyset.Proofs.Sql.JoinPairs
import Keyset.Proofs.Sql.Lexer
import Keyset.Proofs.Sql.NullTests
import Keyset.Proofs.Sql.Rendering
import Keyset.Proofs.Sql.Scanner
import Keyset.Proofs.Sql.Sentences
import Keyset.Proofs.Store.Answer
import Keyset.Proofs.Store.Filter
import Keyset.Proofs.Value.Integers
import Keyset.Proofs.Value.Literal
import Keyset.Proofs.Value.QuotedText
import Keyset.Proofs.Value.ReadBack
import Keyset.Proofs.Walk.Call
import Keyset.Proofs.Walk.Complete
import Keyset.Proofs.Walk.CursorText
import Keyset.Proofs.Walk.Interference
import Keyset.Proofs.Walk.KeyColumn
import Keyset.Proofs.Walk.Lookahead
import Keyset.Proofs.Walk.OverFetch
import Keyset.Proofs.Walk.Precision
import Keyset.Proofs.Walk.Ties
import Keyset.Proofs.Walk.Truncation
import Keyset.Session
import Keyset.Table
