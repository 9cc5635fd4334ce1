import PropTables.Conversion.Node
import PropTables.Main
import PropTables.Proofs.ClassNames
import PropTables.Proofs.RequiredFields
import PropTables.Proofs.TableShape
import PropTables.Proofs.ExportedNames
import PropTables.Proofs.TypeParameters
import PropTables.Proofs.Aliases
import PropTables.Proofs.ErrorPlaces
import PropTables.Proofs.FixedNames
import PropTables.Proofs.Insertions
import PropTables.Proofs.AddedImports
import PropTables.Proofs.Rendering
import PropTables.Proofs.Derivations
import PropTables.Proofs.Predictive
import PropTables.Proofs.StarSearch
import PropTables.Proofs.Following
import PropTables.Proofs.Constructs
import PropTables.Proofs.Images
import PropTables.Proofs.Sentences
import PropTables.Proofs.Attachment
import PropTables.Proofs.Intervals
import PropTables.Proofs.Keeping
import PropTables.Proofs.TreeComments
import PropTables.Proofs.Coincidence
import PropTables.Proofs.CommentPlaces
import PropTables.Proofs.ConstructEchoes
import PropTables.Proofs.FileIndependence
import PropTables.Proofs.Irrelevance
import PropTables.Proofs.Depth
import PropTables.Proofs.Flattening
import PropTables.Proofs.Layout
import PropTables.Proofs.Makes
import PropTables.Proofs.MemberPhrases
import PropTables.Proofs.Permissions
import PropTables.Proofs.ReadBack
import PropTables.Proofs.LegibleTables
import PropTables.Proofs.SourcePlaces
import PropTables.Proofs.Refusals
import PropTables.Proofs.MemberComments
import PropTables.Proofs.Checked
import PropTables.Proofs.StringLiterals
import PropTables.Proofs.NameRequests
import PropTables.Proofs.LoadRuns
import PropTables.Proofs.Termination
import PropTables.Proofs.Passes
