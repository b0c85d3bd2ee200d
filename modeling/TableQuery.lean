import TableQuery.Json.Reader
import TableQuery.Json.Printer
import TableQuery.Column.OfJson
import TableQuery.ExportLink
import TableQuery.Config.File
import TableQuery.Composer
import TableQuery.Proofs.Percent
import TableQuery.Proofs.QueryString
import TableQuery.Proofs.Stages
import TableQuery.Proofs.Clause
import TableQuery.Proofs.Compose
import TableQuery.Proofs.Chain
import TableQuery.Proofs.Connective
import TableQuery.Proofs.Terms
import TableQuery.Proofs.Precedence
import TableQuery.Proofs.Leaves
import TableQuery.Proofs.ReservedPath
import TableQuery.Proofs.Numeral
import TableQuery.Proofs.Window
import TableQuery.Proofs.Spelling
import TableQuery.Proofs.BaseQuery
import TableQuery.Proofs.Outcome
import TableQuery.Proofs.PageTurn
import TableQuery.Proofs.Normal
import TableQuery.Proofs.Search
import TableQuery.Proofs.ExportLink
import TableQuery.Proofs.OneClause
import TableQuery.Proofs.ColumnPath
import TableQuery.Proofs.FirstValue
import TableQuery.Proofs.EmptyValue
import TableQuery.Proofs.Decode
import TableQuery.Proofs.Listing
import TableQuery.Proofs.FalsyValue
import TableQuery.Proofs.Regroup
import TableQuery.Proofs.Reading
import TableQuery.Proofs.TwoReaders
import TableQuery.Proofs.LinkParts
import TableQuery.Proofs.TwoPasses
import TableQuery.Proofs.Clock
import TableQuery.Proofs.UtcOffset
import TableQuery.Proofs.Suffix
import TableQuery.Proofs.OffsetVariable
import TableQuery.Proofs.PageNumeral
import TableQuery.Proofs.ColumnJson
import TableQuery.Proofs.OrderText
import TableQuery.Proofs.ColumnIndex
