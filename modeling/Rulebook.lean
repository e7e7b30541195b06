import Rulebook.Catalog
import Rulebook.Memo
import Rulebook.Proofs.Grammar.Acceptance
import Rulebook.Proofs.Grammar.RoundTrip
import Rulebook.Proofs.Grammar.Reprint
import Rulebook.Proofs.Rule.Encoded
import Rulebook.Proofs.Entry.Encoded
import Rulebook.Proofs.Catalog.Refinement
import Rulebook.Proofs.Memo.Transparency
import Rulebook.Proofs.Catalog.Contents
import Rulebook.Proofs.Rule.Conjunction
import Rulebook.Proofs.Settings.Validation
import Rulebook.Proofs.Catalog.Reprinting
import Rulebook.Proofs.Number.Order
import Rulebook.Proofs.Number.Shortest
import Rulebook.Proofs.Number.Exact
import Rulebook.Proofs.Json.ExactReading
import Rulebook.Proofs.Rule.ShortNumerals
import Rulebook.Proofs.Catalog.Reloading
import Rulebook.Proofs.Catalog.Decodability
import Rulebook.Proofs.Grammar.Leniency
import Rulebook.Proofs.Grammar.Grouped
import Rulebook.Proofs.Rule.Readings
import Rulebook.Proofs.Entry.Guarded
import Rulebook.Proofs.Entry.WellFormed
import Rulebook.Proofs.Grammar.Offence
import Rulebook.Proofs.Grammar.Boundaries
import Rulebook.Proofs.Rule.Joined
import Rulebook.Proofs.Rule.Ordering
import Rulebook.Proofs.Rule.Truth
import Rulebook.Proofs.Rule.Regrouping
import Rulebook.Proofs.Rule.SharedNumerals
import Rulebook.Proofs.Memo.Retention
import Rulebook.Proofs.Catalog.Combining
import Rulebook.Proofs.Facts.Members
import Rulebook.Proofs.Settings.Agreement
import Rulebook.Proofs.Wording
