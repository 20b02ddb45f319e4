import HttpFields.Diagnostic.Failure
import HttpFields.Script.Ordinary
import HttpFields.Store.Change
import HttpFields.Store.Fill
import HttpFields.Proofs.Snapshot
import HttpFields.Proofs.Reading
import HttpFields.Proofs.Outcome
import HttpFields.Proofs.Construction
import HttpFields.Proofs.History
import HttpFields.Proofs.Multimap
import HttpFields.Proofs.Rebuild
import HttpFields.Proofs.Transcript
import HttpFields.Proofs.RecordCalls
import HttpFields.Proofs.SequenceCalls
import HttpFields.Proofs.InPlace
import HttpFields.Proofs.Edit
import HttpFields.Proofs.Guarding
import HttpFields.Proofs.Independence
import HttpFields.Proofs.Alphabet
import HttpFields.Proofs.Pairs
import HttpFields.Proofs.Rounding
import HttpFields.Proofs.Shortest
import HttpFields.Proofs.Spelling
import HttpFields.Proofs.ScriptNumeral
import HttpFields.Proofs.Definitions
import HttpFields.Proofs.Padding
import HttpFields.Proofs.Warnings
import HttpFields.Proofs.Verdict
import HttpFields.Proofs.Replacement
import HttpFields.Proofs.Batch
import HttpFields.Proofs.Collected
import HttpFields.Proofs.ValueGrammar
import HttpFields.Proofs.NameGrammar
import HttpFields.Proofs.Nearest
import HttpFields.Proofs.NumeralParts
import HttpFields.Proofs.Denotation
import HttpFields.Proofs.Properties
import HttpFields.Proofs.Leaves
import HttpFields.Proofs.RequestNames
import HttpFields.Proofs.Walks
import HttpFields.Proofs.Scans
