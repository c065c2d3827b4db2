import ResourceQuery.Main
import ResourceQuery.Members
import ResourceQuery.Proofs.Appending
import ResourceQuery.Proofs.BareValues
import ResourceQuery.Proofs.CensusWalk
import ResourceQuery.Proofs.CodeText
import ResourceQuery.Proofs.Compatibility
import ResourceQuery.Proofs.Congruence
import ResourceQuery.Proofs.ExactValues
import ResourceQuery.Proofs.FoldingPasses
import ResourceQuery.Proofs.HexadecimalLiterals
import ResourceQuery.Proofs.IntegerLiterals
import ResourceQuery.Proofs.ListMeaning
import ResourceQuery.Proofs.LocalDates
import ResourceQuery.Proofs.NestedPaths
import ResourceQuery.Proofs.Notations
import ResourceQuery.Proofs.NumeralMachine
import ResourceQuery.Proofs.PrunedText
import ResourceQuery.Proofs.QueryJson
import ResourceQuery.Proofs.QuotedLiterals
import ResourceQuery.Proofs.SpanLiterals
