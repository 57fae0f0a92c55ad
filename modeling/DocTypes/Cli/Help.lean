namespace DocTypes.Cli

def programName : String :=
  "phpdoc-typecheck"

def versionText : String :=
  programName ++ " 0.1.0\n"

def helpText : String :=
  "Check PHPDoc type annotations against native PHP signatures\n\n" ++
  "Usage: phpdoc-typecheck [OPTIONS] [PATHS]...\n\n" ++
  "Arguments:\n" ++
  "  [PATHS]...  Files or directories to check.  Directories are walked, honouring `.gitignore`\n" ++
  "              [default: .]\n\n" ++
  "Options:\n" ++
  "      --fix                Rewrite doc types that don't conform to the recommended style\n" ++
  "      --format <FORMAT>    Output format [possible values: text, json]\n" ++
  "      --strict             Fail on internal errors instead of reporting a file-level diagnostic\n" ++
  "      --config <FILE>      Config file to use instead of the default search path\n" ++
  "      --log-level <LEVEL>  Log filter, e.g. `debug` or `phpdoc_typecheck=trace`.  Overrides\n" ++
  "                           `RUST_LOG`\n" ++
  "  -h, --help               Print help\n" ++
  "  -V, --version            Print version\n"

end DocTypes.Cli
