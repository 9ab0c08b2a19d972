/-!
# Logging setup

A program that embeds the wallets decides where its log goes: to the console, to
a file, to both or nowhere. A log that goes nowhere needs no preparation. One
that goes to a file needs the file's directory, which is made on the way.
-/

namespace Purse

/-- How often a log file gives way to a new one. -/
inductive LogRotation where
  | never
  | hourly
  | daily
  deriving DecidableEq, Repr, Inhabited

/-- A log file and where it lies. -/
structure LogFile where
  directory : String
  name : String := "multiwallet.log"
  rotation : LogRotation := .never
  deriving DecidableEq, Repr

/-- Why a log cannot be set up. -/
inductive LogFailure where
  /-- The directory cannot be made. -/
  | directory (why : String)
  /-- The log cannot be put in place. -/
  | placement (why : String)
  deriving DecidableEq, Repr

def LogFailure.message : LogFailure → String
  | directory why => "Failed to create log directory: " ++ why
  | placement why => "Subscriber initialization failed: " ++ why

/-- Where a log goes. -/
structure LogSetup where
  console : Bool := false
  file : Option LogFile := none
  deriving DecidableEq, Repr

namespace LogSetup

/-- Makes the directory of the log file, if there is a log file. It is for the host to say
whether a directory can be made, or why not. -/
def prepare (makeDirectory : String → Except String Unit) (s : LogSetup) :
    Except LogFailure Unit :=
  match s.file with
  | none => .ok ()
  | some file => (makeDirectory file.directory).mapError .directory

end LogSetup

end Purse
