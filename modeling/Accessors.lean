import Accessors.Command.Arguments
import Accessors.Command.Bundles
import Accessors.Command.Generate
import Accessors.Compile
import Accessors.Dictionary
import Accessors.Disk.Basic
import Accessors.Disk.Entry
import Accessors.Disk.Tree
import Accessors.FileName
import Accessors.Format.Argument
import Accessors.Format.FormatError
import Accessors.Format.Layout
import Accessors.Format.Placeholder
import Accessors.Format.Resolution
import Accessors.Format.Specifier
import Accessors.Identifier.Grouping
import Accessors.Identifier.Name
import Accessors.ImageName
import Accessors.Json.Basic
import Accessors.Json.Decoder
import Accessors.Json.Reader
import Accessors.Json.Token
import Accessors.Json.Writer
import Accessors.Keys
import Accessors.Locale
import Accessors.Main
import Accessors.Namespace.Contents
import Accessors.Namespace.Files
import Accessors.Namespace.Media
import Accessors.Namespace.PropertyLists
import Accessors.Namespace.ReuseIdentifiers
import Accessors.Namespace.Strings
import Accessors.Namespace.Templates
import Accessors.Noted
import Accessors.Notice
import Accessors.Options
import Accessors.Proofs.Command.Bundles
import Accessors.Proofs.Command.Generate
import Accessors.Proofs.Command.Inert
import Accessors.Proofs.Command.Payload
import Accessors.Proofs.Disk.Following
import Accessors.Proofs.Disk.Growth
import Accessors.Proofs.Disk.Writing
import Accessors.Proofs.Exclusion
import Accessors.Proofs.FileName
import Accessors.Proofs.Format.Alternatives
import Accessors.Proofs.Format.Matches
import Accessors.Proofs.Format.Names
import Accessors.Proofs.Format.Nesting
import Accessors.Proofs.Format.Positions
import Accessors.Proofs.Format.Reachability
import Accessors.Proofs.Format.Rendering
import Accessors.Proofs.Format.Resolution
import Accessors.Proofs.Format.Slots
import Accessors.Proofs.Format.Unification
import Accessors.Proofs.Identifier.Alphabet
import Accessors.Proofs.Identifier.Ascii
import Accessors.Proofs.Identifier.Grouping
import Accessors.Proofs.Identifier.Name
import Accessors.Proofs.Identifier.Partition
import Accessors.Proofs.ImageName
import Accessors.Proofs.Json.Decoding
import Accessors.Proofs.Json.Lexing
import Accessors.Proofs.Json.Reading
import Accessors.Proofs.Lossless
import Accessors.Proofs.Namespace.Agreement
import Accessors.Proofs.Namespace.Arguments
import Accessors.Proofs.Namespace.Assembly
import Accessors.Proofs.Namespace.Bindings
import Accessors.Proofs.Namespace.Complete
import Accessors.Proofs.Namespace.Consensus
import Accessors.Proofs.Namespace.Files
import Accessors.Proofs.Namespace.Folders
import Accessors.Proofs.Namespace.KeyedArrays
import Accessors.Proofs.Namespace.Levels
import Accessors.Proofs.Namespace.LooseImages
import Accessors.Proofs.Namespace.MediaTree
import Accessors.Proofs.Namespace.Merging
import Accessors.Proofs.Namespace.Orderly
import Accessors.Proofs.Namespace.Parameters
import Accessors.Proofs.Namespace.Positions
import Accessors.Proofs.Namespace.PropertyLists
import Accessors.Proofs.Namespace.Redefinitions
import Accessors.Proofs.Namespace.ReuseIdentifiers
import Accessors.Proofs.Namespace.Storyboards
import Accessors.Proofs.Namespace.Strings
import Accessors.Proofs.Namespace.Tables
import Accessors.Proofs.Namespace.TranslationGaps
import Accessors.Proofs.OrderFree
import Accessors.Proofs.OrderFree.Consensus
import Accessors.Proofs.OrderFree.Contents
import Accessors.Proofs.OrderFree.Folders
import Accessors.Proofs.OrderFree.Tables
import Accessors.Proofs.Permutation
import Accessors.Proofs.Record.Decoding
import Accessors.Proofs.Record.RoundTrip
import Accessors.Proofs.ReuseTokens
import Accessors.Proofs.SplitRecords
import Accessors.Proofs.Symbol.Orderly
import Accessors.Proofs.Symbol.Path
import Accessors.Proofs.Symbol.Places
import Accessors.Proofs.Symbol.Propagation
import Accessors.Proofs.Symbol.Schema
import Accessors.Proofs.Symbol.Texts
import Accessors.Proofs.Symbol.Validation
import Accessors.Proofs.Template.Merged
import Accessors.Proofs.Template.OrderFree
import Accessors.Proofs.Text.LetterCase
import Accessors.Proofs.Text.Literal
import Accessors.Proofs.Text.Quoted
import Accessors.Proofs.Tree
import Accessors.Record.Asset
import Accessors.Record.PropertyList
import Accessors.Record.Resources
import Accessors.Record.StringTable
import Accessors.Record.Template
import Accessors.Symbol.Node
import Accessors.Symbol.Outline
import Accessors.Symbol.Schema
import Accessors.Symbol.Validation
import Accessors.Template.Merged
import Accessors.Text.Blank
import Accessors.Text.CharSet
import Accessors.Text.LetterCase
import Accessors.Text.Letters
import Accessors.Text.Listed
import Accessors.Text.Quoted
import Accessors.Upsert
