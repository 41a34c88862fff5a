import X64Backend.CommandLine.Directory
import X64Backend.Main
import X64Backend.Proofs.Alloc.Consistency
import X64Backend.Proofs.Alloc.Handover
import X64Backend.Proofs.Alloc.Preservation
import X64Backend.Proofs.Alloc.Thrift
import X64Backend.Proofs.Balance.Paths
import X64Backend.Proofs.Code.Grouping
import X64Backend.Proofs.Code.Layout
import X64Backend.Proofs.Code.Progress
import X64Backend.Proofs.Code.Roundtrip
import X64Backend.Proofs.Compilation
import X64Backend.Proofs.Dataflow.Reliance
import X64Backend.Proofs.Machine.Limits
import X64Backend.Proofs.Origins
import X64Backend.Proofs.Select.Tilings
import X64Backend.Proofs.Selection
import X64Backend.Proofs.Strings
import X64Backend.Proofs.Tidy.Normal
