import DnsResponder.Main
import DnsResponder.Proofs.Wire.Extending
import DnsResponder.Proofs.Wire.Looping
import DnsResponder.Proofs.Wire.Reporting
import DnsResponder.Proofs.Wire.Saving
import DnsResponder.Proofs.Responder.Fates
import DnsResponder.Proofs.Responder.RuleAnswers
import DnsResponder.Proofs.Service.Attribution
import DnsResponder.Proofs.Service.Traffic
import DnsResponder.Proofs.Service.Isolation
import DnsResponder.Proofs.Service.Registrations
import DnsResponder.Proofs.Service.Refusal
import DnsResponder.Proofs.Rule.Moving
import DnsResponder.Proofs.Rule.Cutting
import DnsResponder.Proofs.Rule.Joining
import DnsResponder.Proofs.Rule.Layout
import DnsResponder.Proofs.Rule.Blame
import DnsResponder.Proofs.Rule.Offender
import DnsResponder.Proofs.Name.Spelling
import DnsResponder.Proofs.Rule.Tiling
import DnsResponder.Proofs.Rule.Combinator
import DnsResponder.Proofs.Rule.Faults
import DnsResponder.Proofs.Rule.Precedence
import DnsResponder.Proofs.Rule.Rewinding
import DnsResponder.Proofs.Name.Limits
import DnsResponder.Proofs.Wire.Advancing
