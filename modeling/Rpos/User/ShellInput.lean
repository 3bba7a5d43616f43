import Rpos.Filedescriptors.Pipe
import Rpos.User.Jsh

/-!
# From the keyboard to the shell

Keys go into the keyboard pipe while the shell reads them one at a time, in any order of the two.
-/

namespace Rpos

open Base

/-! ## §1  Keys and rounds -/

section ShellRuns

variable {p : PipeData} {j : JshLayout} {s₀ s : Shell} {q line : List UInt8} {c : UInt8}

end ShellRuns

end Rpos
