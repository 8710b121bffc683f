/-!
# Texts about the program
-/

namespace StyleLang.Help

def version : String := "icss, version 0.1.0\n"

def lines (ls : List String) : String := String.join (ls.map (· ++ "\n"))

def main : String := lines [
  "Usage: icss [OPTIONS] COMMAND [ARGS]...",
  "",
  "  ICSS - compile stylesheets with variables and conditionals to CSS.",
  "",
  "Options:",
  "  --version      Show the version and exit.",
  "  -v, --verbose  Log compiler progress to stderr",
  "  --help         Show this message and exit.",
  "",
  "Commands:",
  "  check    Parse and type-check an ICSS file.",
  "  compile  Compile an ICSS file to CSS."]

def check : String := lines [
  "Usage: icss check [OPTIONS] ICSSFILE",
  "",
  "  Parse and type-check an ICSS file.",
  "",
  "  Prints every diagnostic and exits with code 1 if there are any, or code 0 if",
  "  the stylesheet is valid.",
  "",
  "Options:",
  "  --help  Show this message and exit."]

def compile : String := lines [
  "Usage: icss compile [OPTIONS] ICSSFILE",
  "",
  "  Compile an ICSS file to CSS.",
  "",
  "  Parses, checks, evaluates, and renders the stylesheet.",
  "",
  "Options:",
  "  -o, --output TEXT       Write CSS here instead of stdout",
  "  --indent INTEGER RANGE  Spaces per indent level  [x>=0]",
  "  --strict / --no-strict  Refuse to generate output for a stylesheet with",
  "                          diagnostics",
  "  --help                  Show this message and exit."]

end StyleLang.Help
