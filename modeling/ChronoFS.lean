import ChronoFS.Log.Admission
import ChronoFS.Log.Atomicity
import ChronoFS.Results.Blocks
import ChronoFS.Results.Inodes
import ChronoFS.Results.Offsets
import ChronoFS.Results.RoundTrip
import ChronoFS.Proc.Kill
import ChronoFS.Pipe.Wakeup
import ChronoFS.Ftable.Calls
import ChronoFS.Bio.Coherence
import ChronoFS.Results.Directory
import ChronoFS.Results.Failures
import ChronoFS.Results.Writes
import ChronoFS.Results.Mkfs
import ChronoFS.Results.Exec
import ChronoFS.Console.Discipline
import ChronoFS.Ide.Delivery
import ChronoFS.Sh.Nulterminate
import ChronoFS.Umalloc.Invariant
import ChronoFS.Grep.Match
import ChronoFS.Strings
