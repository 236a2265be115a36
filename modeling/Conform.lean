import Conform.Codec
import Conform.Sequence.Schema
import Conform.Value.Reader
import Conform.Proofs.Schema.Recursion
import Conform.Proofs.Schema.Site
import Conform.Proofs.Schema.Places
import Conform.Proofs.Schema.Meaning
import Conform.Proofs.Sequence.Delivery
import Conform.Proofs.Sequence.Settling
import Conform.Proofs.Agreement
import Conform.Proofs.Sequence.Growth
import Conform.Proofs.Report
import Conform.Proofs.Sequence.Carriers
import Conform.Proofs.Sequence.Rejection
import Conform.Proofs.Schema.Locality
import Conform.Proofs.Schema.EqualDocuments
import Conform.Proofs.Schema.Messages
import Conform.Proofs.Messages
import Conform.Proofs.Sequence.Streaming
import Conform.Proofs.Schema.Literals
import Conform.Proofs.Schema.Declarations
import Conform.Proofs.Schema.Separation
import Conform.Proofs.Schema.ReadingOrder
import Conform.Proofs.Schema.Contexts
import Conform.Proofs.Schema.Choices
import Conform.Proofs.Schema.Overlap
import Conform.Proofs.Codec
import Conform.Proofs.Schema.Regrouping
import Conform.Proofs.Schema.Undeclared
import Conform.Proofs.Sequence.Nesting
import Conform.Proofs.Path
import Conform.Proofs.Announcement
import Conform.Proofs.Schema.Descriptions
