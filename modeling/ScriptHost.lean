import ScriptHost.Cancellation
import ScriptHost.Host.Config
import ScriptHost.Host.Service
import ScriptHost.Proofs.Emission.Steps
import ScriptHost.Proofs.Image.Manifest
import ScriptHost.Proofs.Image.Layout
import ScriptHost.Proofs.Image.RoundTrip
import ScriptHost.Proofs.Emission.Cut
import ScriptHost.Proofs.Reading.Brackets
import ScriptHost.Proofs.Reading.Forward
import ScriptHost.Proofs.Reading.Turns
import ScriptHost.Proofs.Reading.Locality
import ScriptHost.Proofs.Reading.LocalTypes
import ScriptHost.Proofs.Reading.LocalItems
import ScriptHost.Proofs.Token.Tiling
import ScriptHost.Proofs.Reading.Containment
import ScriptHost.Proofs.Binding.Table
import ScriptHost.Proofs.Emission.Numbering
import ScriptHost.Proofs.Reading.Bodies
import ScriptHost.Proofs.Emission.Contents
import ScriptHost.Proofs.Emission.Moments
import ScriptHost.Proofs.Reading.Ranges
import ScriptHost.Proofs.Binding.Gate
import ScriptHost.Proofs.Reading.Edits
import ScriptHost.Proofs.Binding.Alike
import ScriptHost.Proofs.Binding.BodyEdits
import ScriptHost.Proofs.Emission.Agreement
import ScriptHost.Proofs.Binding.Framing
import ScriptHost.Proofs.Binding.Verdicts
import ScriptHost.Proofs.Token.Names
import ScriptHost.Proofs.Reading.Names
import ScriptHost.Proofs.Assembly.Index
import ScriptHost.Proofs.Symbol.Texts
import ScriptHost.Proofs.Binding.Spelling
import ScriptHost.Proofs.Binding.Overloads
import ScriptHost.Proofs.Binding.Aliases
import ScriptHost.Proofs.Binding.Soundness
import ScriptHost.Proofs.Binding.OwnTypes
import ScriptHost.Proofs.Token.Stepwise
import ScriptHost.Proofs.Reading.Reformat
import ScriptHost.Proofs.Assembly.Search
import ScriptHost.Proofs.Binding.FileReferences
import ScriptHost.Proofs.Emission.Places
import ScriptHost.Proofs.Host.EntryBody
import ScriptHost.Proofs.Grammar.Methods
import ScriptHost.Proofs.Grammar.TypeDecls
import ScriptHost.Proofs.Grammar.OwnFields
import ScriptHost.Proofs.Reading.Rounds
import ScriptHost.Proofs.Reading.DirectiveLines
import ScriptHost.Proofs.Token.Literals
import ScriptHost.Proofs.Grammar.Usings
import ScriptHost.Proofs.Token.Unexpected
import ScriptHost.Proofs.Grammar.Groups
import ScriptHost.Proofs.Cancellation
