import AccessControl.Privilege.Registry

/-!
# The standard privileges

The privileges that repositories know, and the registry that they form:
`Registry.standard`. Its root bundles all other privileges.
-/

namespace AccessControl

namespace PrivilegeName

def all := "jcr:all"
def read := "jcr:read"
def write := "jcr:write"
def modifyProperties := "jcr:modifyProperties"
def addChildNodes := "jcr:addChildNodes"
def removeNode := "jcr:removeNode"
def removeChildNodes := "jcr:removeChildNodes"
def readAccessControl := "jcr:readAccessControl"
def modifyAccessControl := "jcr:modifyAccessControl"
def lockManagement := "jcr:lockManagement"
def versionManagement := "jcr:versionManagement"
def nodeTypeManagement := "jcr:nodeTypeManagement"
def retentionManagement := "jcr:retentionManagement"
def lifecycleManagement := "jcr:lifecycleManagement"
def workspaceManagement := "jcr:workspaceManagement"
def nodeTypeDefinitionManagement := "jcr:nodeTypeDefinitionManagement"
def namespaceManagement := "jcr:namespaceManagement"
def repositoryWrite := "rep:write"
def readNodes := "rep:readNodes"
def readProperties := "rep:readProperties"
def addProperties := "rep:addProperties"
def alterProperties := "rep:alterProperties"
def removeProperties := "rep:removeProperties"
def privilegeManagement := "rep:privilegeManagement"
def userManagement := "rep:userManagement"
def indexDefinitionManagement := "rep:indexDefinitionManagement"

end PrivilegeName

namespace Registry

open PrivilegeName

/-- The atomic privileges of the standard registry. -/
def standardLeaves : List String := [
  readAccessControl, modifyAccessControl, addChildNodes, removeChildNodes, removeNode,
  lockManagement, versionManagement, nodeTypeManagement, retentionManagement,
  lifecycleManagement, workspaceManagement, nodeTypeDefinitionManagement, namespaceManagement,
  privilegeManagement, userManagement, readNodes, readProperties, addProperties,
  alterProperties, removeProperties, indexDefinitionManagement]

/-- The aggregates of the standard registry below its root. -/
def standardAggregates : Definitions := [
  (read, [readNodes, readProperties]),
  (modifyProperties, [addProperties, alterProperties, removeProperties]),
  (write, [modifyProperties, addChildNodes, removeNode, removeChildNodes]),
  (repositoryWrite, [write, nodeTypeManagement])]

/-- The definitions of the standard registry. -/
def standardDefinitions : Definitions :=
  let below := standardLeaves.map (fun name => (name, [])) ++ standardAggregates
  below ++ [(all, Definitions.names below)]

/-- The standard registry, or what is wrong with its definitions. -/
def standard? : Except Error Registry :=
  ofDeclarations (standardDefinitions.map fun d => (d.1, d.2.map .text)) (.text all)

theorem standard?_isOk : standard?.toOption.isSome = true := by decide +kernel

/-- The registry of the standard privileges. -/
def standard : Registry := standard?.toOption.get standard?_isOk

end Registry

/-- The memory of a standard registry that has been in use: it knows the depth
    indexes of all its privileges. -/
def DepthMemory.standard : DepthMemory := .ofPrivileges Registry.standard.privileges

end AccessControl
