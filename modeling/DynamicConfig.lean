import DynamicConfig.Main
import DynamicConfig.Host.Workbench
import DynamicConfig.Pattern.Trees
import DynamicConfig.Store.Cached
import DynamicConfig.Value.Hash
import DynamicConfig.Proofs.Safety
import DynamicConfig.Proofs.Acceptance
import DynamicConfig.Proofs.Faithful
import DynamicConfig.Proofs.Paths
import DynamicConfig.Proofs.Tables
import DynamicConfig.Proofs.Versions
import DynamicConfig.Proofs.Polling
import DynamicConfig.Proofs.Caching
import DynamicConfig.Proofs.Contract
import DynamicConfig.Proofs.Forward
import DynamicConfig.Proofs.Numerals
import DynamicConfig.Proofs.Scanning
import DynamicConfig.Proofs.Unlocated
import DynamicConfig.Proofs.Phrases
import DynamicConfig.Proofs.Rendering
import DynamicConfig.Proofs.RoundTrip
import DynamicConfig.Proofs.Heights
import DynamicConfig.Proofs.Repetition
import DynamicConfig.Proofs.Lookups
import DynamicConfig.Proofs.Lossless
import DynamicConfig.Proofs.Priorities
import DynamicConfig.Proofs.Keys
import DynamicConfig.Proofs.Recovery
import DynamicConfig.Proofs.Brackets
import DynamicConfig.Proofs.Cutting
import DynamicConfig.Proofs.Unclosed
import DynamicConfig.Proofs.Chains
import DynamicConfig.Proofs.Positions
import DynamicConfig.Proofs.Rotation
import DynamicConfig.Proofs.Propagation
import DynamicConfig.Proofs.Retry
import DynamicConfig.Proofs.NamedArguments
import DynamicConfig.Proofs.Reordering
import DynamicConfig.Proofs.Histories
import DynamicConfig.Proofs.Arguments
import DynamicConfig.Proofs.Rebuilding
import DynamicConfig.Proofs.Bindings
import DynamicConfig.Proofs.Sharing
import DynamicConfig.Proofs.Slots
import DynamicConfig.Proofs.LongestNumbers
import DynamicConfig.Proofs.Operands
import DynamicConfig.Proofs.Recognition
