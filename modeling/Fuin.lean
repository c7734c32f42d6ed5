import Fuin.Access.Scope
import Fuin.Audit.Edited
import Fuin.Audit.Inclusion
import Fuin.Vault.Appending
import Fuin.Vault.Entries
import Fuin.Vault.Honest
import Fuin.Store.Success
import Fuin.Vault.Audited
import Fuin.Access.Token
import Fuin.Backup.Capsule
import Fuin.Backup.Files
import Fuin.Backup.Keygen
import Fuin.Cli.Calls
import Fuin.Cli.Commands
import Fuin.Cli.Dispatch
import Fuin.Vault.Rotated
import Fuin.Vault.Copies
import Fuin.Backup.Import
import Fuin.Access.Matcher
import Fuin.Access.Roundtrip
import Fuin.Audit.Renewal
import Fuin.Cli.Reachable
import Fuin.Commitments
import Fuin.Vault.Binding
import Fuin.Cli.Handles
import Fuin.Vault.Expired
import Fuin.Vault.Initialised
import Fuin.Vault.Superseded
import Fuin.Audit.Canonical
import Fuin.Backup.Outputs
import Fuin.Cli.Display
import Fuin.Cli.Durations
import Fuin.Cli.Passphrases
import Fuin.Cli.Seeds
import Fuin.Store.Timestamps
import Fuin.Vault.Views
import Fuin.Vault.Answers
import Fuin.Cli.RootSignatures
import Fuin.Vault.Durable
import Fuin.Vault.Replayed
import Fuin.Vault.Linear
import Fuin.Cli.Suggestions
import Fuin.Backup.Recovery
import Fuin.Cli.Arguments
import Fuin.Cli.Main
import Fuin.Cli.Processes
import Fuin.Cli.Clipboard
