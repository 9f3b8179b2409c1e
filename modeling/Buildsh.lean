import Buildsh.Preload
import Buildsh.Names
import Buildsh.Descriptors
import Buildsh.Keys
import Buildsh.Generic.FileTree
import Buildsh.Outputs
import Buildsh.Build
import Buildsh.Rebuild
import Buildsh.Generic.Memo
import Buildsh.Incremental
import Buildsh.FirstTouch
import Buildsh.Clone
import Buildsh.Generic.Pattern
import Buildsh.Patterns
import Buildsh.PreloadLog
import Buildsh.Generic.Calls
import Buildsh.Strace
import Buildsh.Total
import Buildsh.Chunk.Lex
import Buildsh.Chunk.Text
import Buildsh.Chunk.Code
import Buildsh.Chunk.Parse
import Buildsh.Chunk.Literal
import Buildsh.Chunk.Torn
import Buildsh.Chunk.Compile
import Buildsh.Chunk.Exec
import Buildsh.DepsFile
import Buildsh.Exit
import Buildsh.Generic.Output
import Buildsh.Driver
import Buildsh.Selection
import Buildsh.Reported
import Buildsh.Environment
import Buildsh.Autoclean
import Buildsh.Membership
import Buildsh.Generic.Replace
import Buildsh.Variants
import Buildsh.Split
import Buildsh.Ktrace
import Buildsh.FindExec
import Buildsh.Bytecode
import Buildsh.DollarEnv
import Buildsh.Tables
import Buildsh.Records
import Buildsh.Commit
import Buildsh.Scan
import Buildsh.Arguments
import Buildsh.Arglist
import Buildsh.Generic.Recode
import Buildsh.Generic.Unicode
import Buildsh.Release
import Buildsh.TrackerLog
import Buildsh.Wide
import Buildsh.Generic.Locked
import Buildsh.Logging
import Buildsh.Scripts
import Buildsh.Tracker
import Buildsh.Generic.Chains
import Buildsh.LuaTable
import Buildsh.Pairs
import Buildsh.Generic.Ends
import Buildsh.Generic.Rearranged
import Buildsh.Sort
import Buildsh.Matching
import Buildsh.PatternTexts
import Buildsh.ScriptPatterns
