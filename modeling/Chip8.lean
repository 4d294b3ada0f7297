import Chip8.Machine.History
import Chip8.Main
import Chip8.Proofs.BusyWaiting
import Chip8.Proofs.Failure
import Chip8.Proofs.KeyWait
import Chip8.Session
import Chip8.Proofs.Course
import Chip8.Proofs.Trace
import Chip8.Proofs.Calls
import Chip8.Proofs.Coverage
import Chip8.Proofs.Drawing
import Chip8.Proofs.Countdown
import Chip8.Proofs.Divider
import Chip8.Proofs.Surroundings
import Chip8.Proofs.Isolation
import Chip8.Proofs.Senders
import Chip8.Proofs.Beeps
import Chip8.Proofs.Writes
import Chip8.Proofs.Charset
import Chip8.Proofs.Counter
import Chip8.Proofs.BareMachine
import Chip8.Proofs.Defined
import Chip8.Proofs.Redraw
import Chip8.Proofs.Sampling
import Chip8.Proofs.Stranded
import Chip8.Proofs.Bounded
import Chip8.Proofs.CommandLine
import Chip8.Proofs.Account
import Chip8.Proofs.Blit
import Chip8.Proofs.Executed
import Chip8.Proofs.Flow
import Chip8.Proofs.Arithmetic
import Chip8.Proofs.Footprint
import Chip8.Proofs.Access
import Chip8.Proofs.Guarded
import Chip8.Proofs.Patterns
import Chip8.Proofs.Saved
import Chip8.Proofs.Transcript
import Chip8.Proofs.Polling
import Chip8.Proofs.Pixels
import Chip8.Proofs.Loading
