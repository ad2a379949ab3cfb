import KeyringStore.Redb
import KeyringStore.Utf8
import KeyringStore.Protocol
import KeyringStore.Storage
import KeyringStore.Dispatcher
import KeyringStore.Consistency
import KeyringStore.Merkle.Root
import KeyringStore.Merkle.Diff
import KeyringStore.Framing
import KeyringStore.DocumentMap
import KeyringStore.Sync
import KeyringStore.Session
import KeyringStore.FromUtf8
import KeyringStore.Bincode.Codec
import KeyringStore.Bincode.Message
import KeyringStore.Port
import KeyringStore.Rollback
