import ProtoSyntax.Lexeme.ByteCursor
import ProtoSyntax.Main
import ProtoSyntax.Proofs.NodeRanges
import ProtoSyntax.Proofs.Schema.Acceptance
import ProtoSyntax.Proofs.Tiling
import ProtoSyntax.Proofs.NodeAtOffset
import ProtoSyntax.Proofs.Schema.Transparency
import ProtoSyntax.Proofs.TextFormat.Denotation
import ProtoSyntax.Proofs.Safety
import ProtoSyntax.Proofs.Comments
import ProtoSyntax.Proofs.Errors
import ProtoSyntax.Proofs.CorrectPrefix
import ProtoSyntax.Proofs.JoinedTexts
import ProtoSyntax.Proofs.Respelling
import ProtoSyntax.Proofs.Schema.WellFormed
import ProtoSyntax.Proofs.Coverage
import ProtoSyntax.Proofs.Slices
import ProtoSyntax.Proofs.Tree.Edits
import ProtoSyntax.Proofs.SharedTokens
import ProtoSyntax.Proofs.Sessions
import ProtoSyntax.Proofs.AdjacentStrings
import ProtoSyntax.Proofs.Numbers
import ProtoSyntax.Proofs.Extents
import ProtoSyntax.Proofs.Unquoting
import ProtoSyntax.Proofs.TextFormat.Extent
import ProtoSyntax.Proofs.Numerals
import ProtoSyntax.Proofs.Rendering
import ProtoSyntax.Proofs.Values
import ProtoSyntax.Proofs.LosslessJson
