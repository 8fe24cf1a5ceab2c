import StaticCompanion.AccessFlags
import StaticCompanion.Archive.Reading
import StaticCompanion.Archive.Writing
import StaticCompanion.Bytes
import StaticCompanion.ClassFile.Annotations
import StaticCompanion.ClassFile.Basic
import StaticCompanion.ClassFile.Code
import StaticCompanion.ClassFile.Instruction
import StaticCompanion.ClassFile.TypeAnnotations
import StaticCompanion.ConstantPool.Format
import StaticCompanion.ConstantPool.Insert
import StaticCompanion.ConstantPool.Lookup
import StaticCompanion.Descriptor.Parser
import StaticCompanion.Format
import StaticCompanion.Main
import StaticCompanion.MemberKey
import StaticCompanion.Proofs.ChainEnds
import StaticCompanion.Proofs.ClosedWorld
import StaticCompanion.Proofs.CodeTiling
import StaticCompanion.Proofs.DescriptorGrammar
import StaticCompanion.Proofs.DescriptorSignatures
import StaticCompanion.Proofs.DistinctMembers
import StaticCompanion.Proofs.EntryNames
import StaticCompanion.Proofs.ExactOmission
import StaticCompanion.Proofs.ExchangedPasses
import StaticCompanion.Proofs.FinalFields
import StaticCompanion.Proofs.InPlace
import StaticCompanion.Proofs.LambdaHandles
import StaticCompanion.Proofs.MappedMembers
import StaticCompanion.Proofs.OutputLaw
import StaticCompanion.Proofs.PatchedCode
import StaticCompanion.Proofs.Payloads
import StaticCompanion.Proofs.Phases
import StaticCompanion.Proofs.PoolCalls
import StaticCompanion.Proofs.PrefixFree
import StaticCompanion.Proofs.ReachablePools
import StaticCompanion.Proofs.RenamedMembers
import StaticCompanion.Proofs.RoundTrip
import StaticCompanion.Proofs.ScanOrder
import StaticCompanion.Proofs.SecondScan
import StaticCompanion.Proofs.Selection
import StaticCompanion.Proofs.SelfContained
import StaticCompanion.Proofs.SettledTypes
import StaticCompanion.Proofs.SharedConstants
import StaticCompanion.Proofs.ShiftedParameters
import StaticCompanion.Proofs.SignatureCopy
import StaticCompanion.Proofs.SignatureGrammar
import StaticCompanion.Proofs.StaticForms
import StaticCompanion.Proofs.StoredConstants
import StaticCompanion.Proofs.SuccessiveOmission
import StaticCompanion.Proofs.Unaffected
import StaticCompanion.Proofs.UnmatchedPatterns
import StaticCompanion.Proofs.WorklistLoop
import StaticCompanion.Proofs.WriteOnce
import StaticCompanion.Relocation.Analysis
import StaticCompanion.Relocation.Companion
import StaticCompanion.Relocation.Lambda
import StaticCompanion.Relocation.Naming
import StaticCompanion.Relocation.Omission
import StaticCompanion.Relocation.Retarget
import StaticCompanion.Relocation.Scan
import StaticCompanion.Relocation.StaticForm
import StaticCompanion.Relocation.TypeSubstitution
import StaticCompanion.Run.CommandLine
import StaticCompanion.Run.Options
import StaticCompanion.Run.Output
import StaticCompanion.Run.Pattern
import StaticCompanion.Run.Session
import StaticCompanion.Signature.Parser
import StaticCompanion.Text.PoolText
