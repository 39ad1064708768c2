/-!
The rules for importers that know only the old place of the rules file: a bundled text, or a file
that takes its place.
-/
namespace SignedManifest

inductive LegacyRules where
  | bundled
  | file (path : String)
  deriving DecidableEq, Repr

namespace LegacyRules

def ofOverride (path : Option String) : LegacyRules := path.elim bundled file

def bundledLines : List String := [
  "// Version: 1.0",
  "//",
  "// Legacy entitlement rules. Manifests still carry this file under",
  "// rules/default-rules.js because importers older than the versioned rules",
  "// format only look for it there. Newer importers read rules2/rules.js.",
  "",
  "var SOCKETS_ATTRIBUTE = \"sockets\";",
  "var CORES_ATTRIBUTE = \"cores\";",
  "var MULTI_ENTITLEMENT_ATTRIBUTE = \"multi-entitlement\";",
  "var REQUIRES_CONSUMER_TYPE_ATTRIBUTE = \"requires_consumer_type\";",
  "var POOL_DERIVED_ATTRIBUTE = \"pool_derived\";",
  "",
  "function entitlement_name_space() \x7b",
  "    return Entitlement;",
  "\x7d",
  "",
  "function attribute(pool, name) \x7b",
  "    var attrs = pool.getProductAttributes();",
  "    if (attrs === null || !attrs.containsKey(name)) \x7b",
  "        return null;",
  "    \x7d",
  "    return attrs.get(name);",
  "\x7d",
  "",
  "var Entitlement = \x7b",
  "    pre_global: function () \x7b",
  "        if (consumer.getType() === \"person\" && attribute(pool, REQUIRES_CONSUMER_TYPE_ATTRIBUTE) !== \"person\") \x7b",
  "            pre.addError(\"rulefailed.consumer.type.mismatch\");",
  "        \x7d",
  "    \x7d,",
  "",
  "    pre_multi_entitlement: function () \x7b",
  "        if (pre.getQuantity() > 1 && attribute(pool, MULTI_ENTITLEMENT_ATTRIBUTE) !== \"yes\") \x7b",
  "            pre.addError(\"rulefailed.pool.does.not.support.multi-entitlement\");",
  "        \x7d",
  "    \x7d,",
  "",
  "    pre_requires_consumer_type: function () \x7b",
  "        var required = attribute(pool, REQUIRES_CONSUMER_TYPE_ATTRIBUTE);",
  "        if (required !== null && required !== consumer.getType()) \x7b",
  "            pre.addError(\"rulefailed.consumer.type.mismatch\");",
  "        \x7d",
  "    \x7d,",
  "",
  "    post_global: function () \x7b",
  "    \x7d",
  "\x7d;",
  "",
  "var Export = \x7b",
  "    can_export_entitlement: function () \x7b",
  "        return attribute(pool, POOL_DERIVED_ATTRIBUTE) !== \"true\";",
  "    \x7d",
  "\x7d;",
  ""]

def bundledText : String := "\n".intercalate bundledLines

end LegacyRules

end SignedManifest
