import ScriptLowering.Main
import ScriptLowering.Proofs.Preservation
import ScriptLowering.Proofs.ElementWrites
import ScriptLowering.Proofs.Order
import ScriptLowering.Proofs.Idempotence
import ScriptLowering.Proofs.Layout
import ScriptLowering.Proofs.ReportPlaces
import ScriptLowering.Proofs.Redistribution
import ScriptLowering.Proofs.Literals
import ScriptLowering.Proofs.Isolation
import ScriptLowering.Proofs.Freshness
import ScriptLowering.Proofs.Definitions
import ScriptLowering.Proofs.AndNot
import ScriptLowering.Proofs.Delivery
import ScriptLowering.Proofs.LiteralTokens
import ScriptLowering.Proofs.Rescanning
import ScriptLowering.Proofs.Splices
import ScriptLowering.Proofs.Settings
