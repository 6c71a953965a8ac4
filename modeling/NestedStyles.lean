import NestedStyles.Main
import NestedStyles.Proofs.OrderedMap
import NestedStyles.Proofs.Result
import NestedStyles.Proofs.Decimal.Digits
import NestedStyles.Proofs.Json.Quoted
import NestedStyles.Proofs.Json.Pretty
import NestedStyles.Proofs.Cache.Record
import NestedStyles.Proofs.Cache.Ledger
import NestedStyles.Proofs.Cache.Disk
import NestedStyles.Proofs.Cache.Store
import NestedStyles.Proofs.Storage.Site
import NestedStyles.Proofs.Cache.Session
import NestedStyles.Proofs.Cache.StaleMemo
import NestedStyles.Proofs.ClassName.Token
import NestedStyles.Proofs.ClassName.Naming
import NestedStyles.Proofs.Cache.Refinement
import NestedStyles.Proofs.Style.Document
import NestedStyles.Proofs.Style.Replay
import NestedStyles.Proofs.Compile.Sheets
import NestedStyles.Proofs.Compile.Compression
import NestedStyles.Proofs.Style.Key
import NestedStyles.Proofs.Style.Legality
import NestedStyles.Proofs.Style.Spelling
import NestedStyles.Proofs.Cache.Again
import NestedStyles.Proofs.Compile.Blocks
import NestedStyles.Proofs.Cache.Lock
import NestedStyles.Proofs.Cache.Folder
import NestedStyles.Proofs.Cache.Append
import NestedStyles.Proofs.Cache.Clear
import NestedStyles.Proofs.Cache.Persist
import NestedStyles.Proofs.Compile.History
import NestedStyles.Proofs.Compile.Repeat
import NestedStyles.Proofs.ClassName.Readable
import NestedStyles.Proofs.Compile.Distinct
import NestedStyles.Proofs.Css.PostProcess
import NestedStyles.Proofs.Style.Merge
import NestedStyles.Proofs.Css.Engine
import NestedStyles.Proofs.Compile.Concat
import NestedStyles.Proofs.Storage.Place
import NestedStyles.Proofs.CommandLine.Arguments
import NestedStyles.Proofs.Cache.Eventual
import NestedStyles.Proofs.CommandLine.Names
import NestedStyles.Proofs.Style.Grammar
import NestedStyles.Proofs.Style.WellFormed
import NestedStyles.Proofs.Style.Respelling
import NestedStyles.Proofs.ClassName.Identifier
import NestedStyles.Proofs.Cache.Thinning
import NestedStyles.Proofs.Cache.Waiting
import NestedStyles.Proofs.Storage.Contents
import NestedStyles.Proofs.ClassName.Numbered
import NestedStyles.Proofs.Css.Content
import NestedStyles.Proofs.Css.Property
import NestedStyles.Proofs.Storage.Path
import NestedStyles.Proofs.Source.Identifier
import NestedStyles.Proofs.Style.Fragment
import NestedStyles.Proofs.Compile.Refused
import NestedStyles.Proofs.Css.Unknown
import NestedStyles.Proofs.Compile.Pieces
import NestedStyles.Proofs.Css.Quoted
import NestedStyles.Proofs.Css.Split
import NestedStyles.Proofs.Json.Mend
import NestedStyles.Proofs.Storage.Listing
import NestedStyles.Proofs.Storage.Way
