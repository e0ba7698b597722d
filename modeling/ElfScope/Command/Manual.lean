import ElfScope.Command.Options

/-! # The manual

The commands, what they take, and the texts that tell of it.
-/
namespace ElfScope

inductive Command where
  | analyze
  | version
deriving DecidableEq, Repr

namespace Command

def all : List Command := [.analyze, .version]

def name : Command → Text
  | .analyze => "analyze"
  | .version => "version"

def ofName? (t : Text) : Option Command := all.find? (·.name = t)

/-- The heading that a command is listed under. -/
def topic : Command → Text
  | .analyze => "Analysis"
  | .version => "Information"

def brief : Command → Text
  | .analyze => "Extract the structure of an ELF file and/or the threads of a core dump."
  | .version => "Display the version string"

def elfOption : Text := "--elf"
def coreOption : Text := "--core"
def formatOption : Text := "--format"
def noDwarfOption : Text := "--no-dwarf"
def outputOption : Text := "--output"

def fullFormat : Text := "full"
def shortFormat : Text := "short"

def form : Command → CommandForm
  | .analyze =>
    { program := "himmel analyze", word := none, helps := true
      options := [⟨elfOption, .value []⟩, ⟨coreOption, .value []⟩, ⟨formatOption, .value ["json"]⟩,
        ⟨noDwarfOption, .switch⟩, ⟨outputOption, .value []⟩] }
  | .version =>
    { program := "himmel version", word := none, helps := true
      options := [⟨formatOption, .value [fullFormat, shortFormat]⟩] }

def usage : Command → Text
  | .analyze =>
    "usage: himmel analyze [-h] [--elf FILE] [--core FILE] [--format \x7bjson\x7d]\n" ++
    "                      [--no-dwarf] [--output FILE]\n"
  | .version => "usage: himmel version [-h] [--format \x7bfull,short\x7d]\n"

def optionHelp : Command → Text
  | .analyze =>
    "  -h, --help       show this help message and exit\n" ++
    "  --elf FILE       The ELF file to analyze\n" ++
    "  --core FILE      The core dump to analyze\n" ++
    "  --format \x7bjson\x7d  The output format\n" ++
    "  --no-dwarf       Only read the ELF headers. Do not extract the debug symbols\n" ++
    "  --output FILE    The output file. Will go to STDOUT if not set\n"
  | .version =>
    "  -h, --help            show this help message and exit\n" ++
    "  --format \x7bfull,short\x7d\n" ++
    "                        The version format\n"

def help (c : Command) : Text := c.usage ++ "\noptions:\n" ++ c.optionHelp

end Command

namespace Program

def levelOption : Text := "--loglevel"
def logFileOption : Text := "--logfile"
def disableOption : Text := "--disable_loggers"

/-- What comes before and after the name of a command. -/
def form : CommandForm where
  program := "himmel"
  word := some "command"
  helps := false
  options := [⟨levelOption, .value []⟩, ⟨logFileOption, .value []⟩, ⟨disableOption, .value []⟩]

def usage : Text :=
  "usage: himmel [--loglevel LEVEL] [--logfile FILENAME]\n" ++
  "              [--disable_loggers LOGGERS]\n" ++
  "              command\n"

def optionHelp : Text :=
  "positional arguments:\n" ++
  "  command               Command to execute\n\n" ++
  "options:\n" ++
  "  --loglevel LEVEL      Log level to use\n" ++
  "  --logfile FILENAME    File to write logs\n" ++
  "  --disable_loggers LOGGERS\n" ++
  "                        Comma separated list of loggers to disable\n"

def listed (c : Command) : Text :=
  "\n--- " ++ c.topic ++ " ---\n    - " ++ c.name ++ ":    " ++ c.brief ++ "\n"

/-- Each command under its topic. -/
def listing : Text := "Here are the possible commands\n" ++ Command.all.flatMap listed

def help : Text := usage ++ "\n" ++ optionHelp ++ "\n" ++ listing

def version : Text := "0.1.0"

def fullVersion : Text :=
  "Himmel v" ++ version ++ "\n(c) Himmel Developers (License : MIT)"

end Program

end ElfScope
