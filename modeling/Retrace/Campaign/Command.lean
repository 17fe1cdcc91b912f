import Retrace.Campaign.Model
import Retrace.Shell.Words

/-!
# The commands of a campaign

`campaign.c`: every verb of the control tool is a command that is put together in a buffer of 2048 bytes and
given to the shell. The offset goes on by the length of each text whether it was written or not, and what is
left of the buffer is the difference of two unsigned numbers: behind the end it is huge, and the next text is
written there.
-/

namespace Retrace.Campaign

open CLib Shell

def CAMPAIGN_CTL : Bytes := bytes "retrace-ctl"

def CMD_SIZE : Nat := 2048

/-- The command buffer: the string in it, the offset, and whether something was written behind its end. -/
structure Cmd where
  text : Bytes := []
  o : Nat := 0
  overrun : Bool := false
  deriving DecidableEq, Repr

def Cmd.put (b : Cmd) (s : Bytes) : Cmd :=
  if CMD_SIZE < b.o then { b with o := b.o + s.length, overrun := true }
  else { b with text := b.text ++ s.take (CMD_SIZE - b.o - 1), o := b.o + s.length }

def Cmd.put_char (b : Cmd) (c : UInt8) : Cmd := { b with text := b.text ++ [c], o := b.o + 1 }

def cmd_arg_loop (b : Cmd) : Bytes → Cmd
  | [] => b
  | c :: arg =>
    if b.o + 4 < CMD_SIZE then
      cmd_arg_loop (if c = squote then b.put [squote, backslash, squote, squote] else b.put_char c) arg
    else b

def cmd_arg (b : Cmd) (arg : Bytes) : Cmd := (cmd_arg_loop (b.put (bytes " '")) arg).put [squote]

def cmd_start (ctl_sock : Bytes) : Cmd :=
  let b := ({} : Cmd).put CAMPAIGN_CTL
  if ctl_sock ≠ [] then cmd_arg (b.put (bytes " --sock")) ctl_sock else b

def cmd_extra (b : Cmd) (extra : List Bytes) : Cmd :=
  extra.foldl (fun b arg => if b.o + 4 < CMD_SIZE then cmd_arg b arg else b) b

def ctl_run_cmd (ctl_sock : Bytes) (extra : List Bytes) : Cmd := cmd_extra (cmd_start ctl_sock) extra

def spawn_cmd (ctl_sock preload : Bytes) (argv : List Bytes) : Cmd :=
  let b := (cmd_start ctl_sock).put (bytes " spawn")
  let b := if preload ≠ [] then cmd_arg (b.put (bytes " --preload")) preload else b
  argv.foldl cmd_arg (b.put (bytes " --"))

def exit_query (pid : Int) : Bytes :=
  snprintf 128 (bytes "name == \"retrace.ctl.exit\" and pid == " ++ fmtInt pid)

def push_args (path : Bytes) : List Bytes := [bytes "policy-push", path]

def await_args (journal_base : Bytes) (pid : Int) : List Bytes :=
  [bytes "events", bytes "--journal", journal_base, bytes "--query", exit_query pid]

def start_vector (ctl_sock : Bytes) : List Bytes :=
  [CAMPAIGN_CTL] ++ if ctl_sock ≠ [] then [bytes "--sock", ctl_sock] else []

def ctl_vector (ctl_sock : Bytes) (extra : List Bytes) : List Bytes := start_vector ctl_sock ++ extra

def spawn_vector (ctl_sock preload : Bytes) (argv : List Bytes) : List Bytes :=
  start_vector ctl_sock ++ [bytes "spawn"] ++ (if preload ≠ [] then [bytes "--preload", preload] else []) ++
    [bytes "--"] ++ argv

def Delivers (b : Cmd) (vector : List Bytes) : Prop := b.overrun = false ∧ words b.text = some vector

instance (b : Cmd) (vector : List Bytes) : Decidable (Delivers b vector) := inferInstanceAs (Decidable (_ ∧ _))

/-- The commands of a cell are intact: its policy is pushed, its sample is spawned, and the journal is
queried for the exit of any process number. -/
structure CellIntact (c : Plan) (sample : Sample) (policy : Policy) : Prop where
  push : Delivers ( ctl_run_cmd c.ctl_sock (push_args policy.path)) (ctl_vector c.ctl_sock (push_args policy.path))
  spawn : Delivers (spawn_cmd c.ctl_sock c.preload sample.argv) (spawn_vector c.ctl_sock c.preload sample.argv)
  await : ∀ pid : Int, 0 < pid → pid < 2 ^ 63 →
    Delivers ( ctl_run_cmd c.ctl_sock (await_args c.journal_base pid))
      (ctl_vector c.ctl_sock (await_args c.journal_base pid))

def CommandsIntact (c : Plan) : Prop :=
  ∀ cell ∈ c.cells, ∀ sample ∈ c.samples[cell.sample]?, ∀ policy ∈ c.policies[cell.policy]?,
    CellIntact c sample policy

def quoted (arg : Bytes) : Bytes := bytes " '" ++ escapeQuotes arg ++ [squote]

/-- An argument at the offset `o` gets its quotes and all its characters: a character is only put while four
bytes are left behind it. -/
def ArgFits (o : Nat) (arg : Bytes) : Prop :=
  o + 2 + (escapeQuotes arg).length + 1 < CMD_SIZE ∧
    ∀ pre c, arg = pre ++ [c] → o + 2 + (escapeQuotes pre).length + 4 < CMD_SIZE

def ExtraFit : Nat → List Bytes → Prop
  | _, [] => True
  | o, arg :: extra => o + 4 < CMD_SIZE ∧ ArgFits o arg ∧ ExtraFit (o + (quoted arg).length) extra

def ArgvFit : Nat → List Bytes → Prop
  | _, [] => True
  | o, arg :: argv => ArgFits o arg ∧ ArgvFit (o + (quoted arg).length) argv

def start_text (ctl_sock : Bytes) : Bytes :=
  CAMPAIGN_CTL ++ if ctl_sock ≠ [] then bytes " --sock" ++ quoted ctl_sock else []

def StartFits (ctl_sock : Bytes) : Prop :=
  ctl_sock ≠ [] → ArgFits (CAMPAIGN_CTL ++ bytes " --sock").length ctl_sock

def CtlFits (ctl_sock : Bytes) (extra : List Bytes) : Prop :=
  StartFits ctl_sock ∧ ExtraFit (start_text ctl_sock).length extra

def spawn_text (ctl_sock preload : Bytes) : Bytes :=
  start_text ctl_sock ++ bytes " spawn" ++
    (if preload ≠ [] then bytes " --preload" ++ quoted preload else []) ++ bytes " --"

def SpawnFits (ctl_sock preload : Bytes) (argv : List Bytes) : Prop :=
  StartFits ctl_sock ∧ (start_text ctl_sock ++ bytes " spawn").length < CMD_SIZE ∧
  (preload ≠ [] →
    (start_text ctl_sock ++ bytes " spawn" ++ bytes " --preload").length < CMD_SIZE ∧
      ArgFits (start_text ctl_sock ++ bytes " spawn" ++ bytes " --preload").length preload) ∧
  (spawn_text ctl_sock preload).length < CMD_SIZE ∧ ArgvFit (spawn_text ctl_sock preload).length argv

def CommandsFit (c : Plan) : Prop :=
  ∀ cell ∈ c.cells, ∀ sample ∈ c.samples[cell.sample]?, ∀ policy ∈ c.policies[cell.policy]?,
    CtlFits c.ctl_sock (push_args policy.path) ∧ SpawnFits c.ctl_sock c.preload sample.argv ∧
      ∀ pid : Int, 0 < pid → pid < 2 ^ 63 → CtlFits c.ctl_sock (await_args c.journal_base pid)

end Retrace.Campaign
