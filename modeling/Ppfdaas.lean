import Ppfdaas.Vendor.StateMachineThreads
import Ppfdaas.Vendor.Seal
import Ppfdaas.Vendor.CnpCodec
import Ppfdaas.Vendor.EvalContext
import Ppfdaas.Vendor.InferenceService
import Ppfdaas.Vendor.ServiceRuns
import Ppfdaas.Vendor.HandshakeOrder
import Ppfdaas.Vendor.ContinuousValidation
import Ppfdaas.Vendor.RequestIsolation
import Ppfdaas.Vendor.DiagramSafety
import Ppfdaas.Bank.RequestPacking
import Ppfdaas.Library.Negacyclic
import Ppfdaas.Library.WindowSum
import Ppfdaas.Scoring.SlotPipeline
import Ppfdaas.Scoring.CnpPipeline
import Ppfdaas.Library.UniformSampling
import Ppfdaas.Vendor.OutputMask
import Ppfdaas.Library.FixedWidth
import Ppfdaas.Transcipher.CipherBackend
import Ppfdaas.Transcipher.Hera
import Ppfdaas.Transcipher.Rubato
import Ppfdaas.Transcipher.AeadNonce
import Ppfdaas.Bank.SealWrapper
import Ppfdaas.Library.Dialogue
import Ppfdaas.Bank.ClientProtocol
import Ppfdaas.Bank.SharedWrapper
import Ppfdaas.Library.ClientServer
import Ppfdaas.Protocol.Handshake
import Ppfdaas.Vendor.ProvisioningRace
import Ppfdaas.Library.ScaledPhase
import Ppfdaas.Transcipher.CnpOnline
import Ppfdaas.Library.WriteLoop
import Ppfdaas.Transcipher.FvSlots
import Ppfdaas.Library.CheckedWords
import Ppfdaas.Library.FieldLayers
import Ppfdaas.Transcipher.WordLayers
import Ppfdaas.Transcipher.HeraField
import Ppfdaas.Transcipher.RoundKeys
import Ppfdaas.Transcipher.RubatoField
import Ppfdaas.Transcipher.CipherField
import Ppfdaas.Vendor.RotationSums
import Ppfdaas.Vendor.BsgsOutcome
import Ppfdaas.Library.ProgramActions
import Ppfdaas.Vendor.HandlerActions
import Ppfdaas.Vendor.OutputSize
import Ppfdaas.Vendor.KeyCoverage
import Ppfdaas.Vendor.FaultMessage
import Ppfdaas.Library.PhasedThreads
import Ppfdaas.Vendor.TripOnce
import Ppfdaas.Transcipher.Keystream
import Ppfdaas.Transcipher.Envelope
import Ppfdaas.Transcipher.XofSeeds
import Ppfdaas.Library.BoxSums
import Ppfdaas.Library.Rounding
import Ppfdaas.Scripts.CnpGate
import Ppfdaas.Scripts.PrepareInputs
import Ppfdaas.Library.WideWords
import Ppfdaas.Transcipher.RnsScaleUp
import Ppfdaas.Library.SignedWords
import Ppfdaas.Transcipher.SignedLift
import Ppfdaas.Vendor.CodecRoundTrip
import Ppfdaas.Library.RejectionRuns
import Ppfdaas.Transcipher.FeatureCodec
import Ppfdaas.Transcipher.UniformSample
import Ppfdaas.Scoring.WeightFile
import Ppfdaas.Scoring.WeightWriter
import Ppfdaas.Bench.Packing
import Ppfdaas.Bench.ParityGate
import Ppfdaas.Library.Kronecker
import Ppfdaas.Scripts.LayoutTrials
import Ppfdaas.Scripts.MaskCheck
import Ppfdaas.Transcipher.SlotLayout
import Ppfdaas.Bench.StartGate
import Ppfdaas.Transcipher.RowSchedule
import Ppfdaas.Library.DrawStream
import Ppfdaas.Vendor.UniformModQ
import Ppfdaas.Transcipher.UniformModT
import Ppfdaas.Bench.GateDeadlock
import Ppfdaas.Transcipher.CnpRecovery
import Ppfdaas.Transcipher.DataDirectory
import Ppfdaas.Transcipher.SlotRecovery
import Ppfdaas.Library.DrawShift
import Ppfdaas.Transcipher.MaskedOutput
import Ppfdaas.Vendor.GeneratedMask
import Ppfdaas.Library.ErrorBudget
import Ppfdaas.Protocol.ApproximateSeal
import Ppfdaas.Protocol.FixedPointSeal
import Ppfdaas.Protocol.HonestSession
import Ppfdaas.Protocol.ServedClients
import Ppfdaas.Protocol.CoefficientSeal
import Ppfdaas.Protocol.CoefficientWords
import Ppfdaas.Protocol.CnpSession
import Ppfdaas.Protocol.InterleavedRequests
import Ppfdaas.Protocol.NetworkCalls
