import ExtensionHost.Action.Script
import ExtensionHost.Directory.Basic
import ExtensionHost.Host.Run
import ExtensionHost.Json.Parse
import ExtensionHost.Schema.Encode
import ExtensionHost.Proofs.Conservation
import ExtensionHost.Proofs.Correlation
import ExtensionHost.Proofs.Reporting
import ExtensionHost.Proofs.Registration
import ExtensionHost.Proofs.Refusal
import ExtensionHost.Proofs.Mirror
import ExtensionHost.Proofs.Ownership
import ExtensionHost.Proofs.Schema.Inheritance
import ExtensionHost.Proofs.Schema.TriggerRequests
import ExtensionHost.Proofs.Schema.BracketedTypes
import ExtensionHost.Proofs.Admission
import ExtensionHost.Proofs.QualifiedNames
import ExtensionHost.Proofs.Binding
import ExtensionHost.Proofs.EditScript
import ExtensionHost.Proofs.ChangeReport
import ExtensionHost.Proofs.Snapshot
import ExtensionHost.Proofs.Removals
import ExtensionHost.Proofs.Outstanding
import ExtensionHost.Proofs.DecodedIds
import ExtensionHost.Proofs.Callbacks
import ExtensionHost.Proofs.Issuing
import ExtensionHost.Proofs.Footprint
import ExtensionHost.Proofs.Schema.Coercion
import ExtensionHost.Proofs.ChangeLog
import ExtensionHost.Proofs.Schema.KeyRegistry
