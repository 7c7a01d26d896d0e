import DiagramTint.Config
import DiagramTint.Yaml.Scalar.Write

/-!
# Configurations as YAML text
-/

namespace DiagramTint

/-- A rule as an entry of a sequence. -/
def ConfigRule.toYaml (r : ConfigRule) : List Char :=
  "- selector: ".toList ++ Yaml.Scalar.write r.selector.toList ++
    "  tag: ".toList ++ Yaml.Scalar.write r.tag.name.toList

/-- The text that stands for a configuration. -/
def Config.toYaml (c : Config) : List Char :=
  if c.rules.isEmpty then "rules: []\n".toList
  else "rules:\n".toList ++ c.rules.flatMap ConfigRule.toYaml

end DiagramTint
