/-
  LegacyGradient.Command.Response

  What the command gives back to its caller: an exit code, a text on the output and one on the
  error channel. Help and the version go to the output; a fault in the command line has the exit
  code 2, and an error in a run the exit code 1.
-/
import LegacyGradient.Command.Run

namespace LegacyGradient.Command

/-- The answer to a call of the command. -/
structure Response where
  /-- The exit code. -/
  code : Nat
  /-- The text on the output. -/
  output : Text := []
  /-- The text on the error channel. -/
  errors : Text := []
deriving DecidableEq

/-- The name and the version of the command. -/
def versionText : Text := "lingrad 0.1.0\n".toList

/-- The first line of the help text, which shows how the command is called. -/
def usageLine : Text := "Usage: lingrad [OPTIONS] [VALUES]...\n".toList

/-- The help text. -/
def helpText : Text :=
  "Convert CSS linear-gradient() values to -webkit-gradient() syntax\n\n".toList ++ usageLine ++
    ("\n" ++
    "Arguments:\n" ++
    "  [VALUES]...  Property values to convert. Reads one value per stdin line when omitted\n" ++
    "\n" ++
    "Options:\n" ++
    "      --policy <POLICY>        What to do with a gradient that can't be converted " ++
      "[possible values: abort, skip, keep-source]\n" ++
    "      --parallel               Convert the gradients of each value in parallel\n" ++
    "      --min-stops <MIN_STOPS>  Fewest color stops a gradient may have\n" ++
    "      --config <CONFIG>        JSON file with conversion options. " ++
      "Flags override its values\n" ++
    "      --json                   Print a JSON report per value " ++
      "instead of the converted text\n" ++
    "  -v, --verbose...             More log output (repeatable)\n" ++
    "  -q, --quiet                  Only log errors\n" ++
    "  -h, --help                   Print help\n" ++
    "  -V, --version                Print version\n").toList

/-- The answer to a call that does not lead to a run. -/
def Exit.response : Exit → Response
  | help => { code := 0, output := helpText }
  | version => { code := 0, output := versionText }
  | usage error => {
      code := 2
      errors := "error: ".toList ++ error.message ++ "\n\n".toList ++ usageLine ++
        "\nFor more information, try '--help'.\n".toList }

/-- The answer to a run. -/
def Outcome.response (o : Outcome) : Response where
  code := o.code
  output := o.output
  errors := o.error.elim [] fun error => error.account.display

/-- The answer to a call with these arguments, where `file` gives the contents of files and `input`
is what is sent to the command. -/
def respond (arguments : List Text) (file : Text → Option ByteArray) (input : ByteArray) :
    Response :=
  match Arguments.ofList arguments with
  | .error exit => exit.response
  | .ok a => (a.run file input).response

end LegacyGradient.Command
