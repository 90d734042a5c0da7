import CaseFolding.Text.Line

namespace CaseFolding

/-! # Usage -/

/-- The name under which the command speaks of itself. -/
def commandName : String := "casefold-generate"

/-- What the command tells about its use. -/
def usage : String :=
  Text.ofLines [
    "Usage: " ++ commandName ++ " [--gap <gap>] [--utf8-gap <utf8-gap>] [--no-delta] " ++
      "[--no-delta-exception] [--no-set] [--no-set-exception] [--reset] [--utf8 <utf8>] " ++
      "[-o <output>] [--var <var>] [--result <result>] [--function <function>] " ++
      "[--dump <dump>] [--] [<input>]",
    "",
    "Compile CaseFolding.txt into balanced range-dispatch C code.",
    "",
    "Positional Arguments:",
    "  input             path to CaseFolding.txt",
    "",
    "Options:",
    "  --gap             merge gap for single-width output",
    "  --utf8-gap        merge gap for UTF-8 length segmented output",
    "  --no-delta        never use the constant offset rule",
    "  --no-delta-exception",
    "                    never use the offset-with-one-exception rule",
    "  --no-set          never use the `c | 1` rule",
    "  --no-set-exception",
    "                    never use the `c | 1` rule with an exception run",
    "  --reset           allow the bit-0-insensitive reset rule",
    "  --utf8            write one artifact per UTF-8 length class into this",
    "                    directory",
    "  -o, --output      output file for single-width code (default stdout)",
    "  --var             name of the codepoint variable in generated code",
    "  --result          variable assigned by UTF-8 segmented code",
    "  --function        wrap single-width code in a C function of this name",
    "  --dump            write the folded value of every BMP codepoint to this file",
    "  --help, help      display usage information",
    ""]

/-- What follows every complaint about arguments. -/
def usageHint : String :=
  Text.ofLines ["", "Run " ++ commandName ++ " --help for more information."]

end CaseFolding
