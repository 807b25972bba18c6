import RecipeManifest.Main
import RecipeManifest.Proofs.Condition
import RecipeManifest.Proofs.StoppedRuns
import RecipeManifest.Proofs.RepeatedRuns
import RecipeManifest.Proofs.ScannedHeredoc
import RecipeManifest.Proofs.PropertyTraces
import RecipeManifest.Proofs.TokenSpan
import RecipeManifest.Proofs.Arrangement
import RecipeManifest.Proofs.LineDeclarations
import RecipeManifest.Proofs.Lookahead
import RecipeManifest.Proofs.FollowingText
import RecipeManifest.Proofs.TokenComposition
import RecipeManifest.Proofs.ReadStatements
import RecipeManifest.Proofs.CodeCharacters
import RecipeManifest.Proofs.FaultLines
import RecipeManifest.Proofs.Precedence
import RecipeManifest.Proofs.TokenLines
import RecipeManifest.Proofs.ControlStructures
import RecipeManifest.Proofs.PaddedStatements
import RecipeManifest.Proofs.CodeDepth
import RecipeManifest.Proofs.PrecedingText
import RecipeManifest.Proofs.CommentLines
import RecipeManifest.Proofs.AnnouncedHeredocs
import RecipeManifest.Proofs.TokenOrder
import RecipeManifest.Proofs.KeptCode
import RecipeManifest.Proofs.QuotedTexts
import RecipeManifest.Proofs.ScannedLines
import RecipeManifest.Proofs.DefaultStates
import RecipeManifest.Proofs.ValueForms
import RecipeManifest.Proofs.CommentedTexts
import RecipeManifest.Proofs.LexerTurns
import RecipeManifest.Proofs.UnguardedStatements
import RecipeManifest.Proofs.EnclosingParens
import RecipeManifest.Proofs.ScopedContexts
import RecipeManifest.Proofs.NodeLookups
